import PureplayIngest.Lib.TransitionSystem
import PureplayIngest.Migrations.Files

/-!
`runMigrations` at every start of the service.

All the files are executed again each time, by one process at a time. A start can
be cut short: the process stops between two statements, or one that works
`CONCURRENTLY` is left halfway. Meanwhile operators write to the two reference
tables, and can rebuild an index that is marked as invalid.
-/

namespace PureplayIngest.Migrations

open Lib

inductive Startup.Phase
  | idle
  | running (rest : List Statement)
  /-- `sql.raw(statement).execute` has thrown. -/
  | failed (s : Statement)
  | done
  deriving DecidableEq

structure Startup where
  db : Db
  phase : Startup.Phase

namespace Startup

inductive Action
  | start
  | statement
  | crash
  | halfway
  | edit (codes : Keyed ClubCodeRow.club_code) (aliases : Keyed ClubAliasRow.clubAlias)
  /-- `REINDEX INDEX` -/
  | rebuild (name : String)

def Phase.next : List Statement → Phase
  | [] => .done
  | rest => .running rest

def exec (c : Startup) : Action → Option Startup
  | .start =>
      match c.phase with
      | .running _ => none
      | _ => some ⟨c.db, .running migrations⟩
  | .statement =>
      match c.phase with
      | .running (s :: rest) =>
          match s.exec c.db with
          | some db => some ⟨db, .next rest⟩
          | none => some ⟨c.db, .failed s⟩
      | _ => none
  | .crash =>
      match c.phase with
      | .running _ => some ⟨c.db, .idle⟩
      | _ => none
  | .halfway =>
      match c.phase with
      | .running (s :: _) => (s.halfway c.db).map fun db => ⟨db, .idle⟩
      | _ => none
  | .edit codes aliases =>
      if (c.db.objects (.relation "club_codes")).isSome ∧
          (c.db.objects (.relation "club_aliases")).isSome ∧ Db.Refers codes aliases.entries then
        some ⟨{ c.db with club_codes := codes, club_aliases := aliases }, c.phase⟩
      else none
  | .rebuild name =>
      some ⟨{ c.db with invalid := Function.update c.db.invalid name false }, c.phase⟩

/-- The service starts for the first time on an empty database. -/
def system : System Startup Action where
  init c := c = ⟨.empty, .idle⟩
  exec := exec

/-- While the migrations run, operators add and change rows but take none away. -/
def KeepsRows : Startup → Action → Prop
  | c, .edit codes aliases => ∀ rest, c.phase = .running rest →
      (∀ k, c.db.club_codes.Known k → codes.Known k) ∧
        ∀ k, c.db.club_aliases.Known k → aliases.Known k
  | _, _ => True

/-! ### The script -/

def ensures : List (Ensure ObjectName Object) := migrations.filterMap Statement.ensure

/-- The objects after one run on an empty database. -/
def migrated : ObjectName → Option Object := ensures.foldl Ensure.apply fun _ => none

/-- The statements before leave all that this one refers to. -/
structure Prepared (done : List Statement) (s : Statement) : Prop where
  needs : Ensure.Provided ensures (done.filterMap Statement.ensure) s.needs
  index : ∀ name ∈ s.dropped, ∀ e ∈ ensures, e.target = .relation name →
    ∀ o ∈ e.object, o.isIndex = true
  fits : s.Fits
  refers : ∀ row ∈ s.clubAliases, ∃ code ∈ done.flatMap Statement.clubCodes,
    code.club_code = row.club_code

instance (done : List Statement) (s : Statement) : Decidable (Prepared done s) :=
  decidable_of_iff
    (Ensure.Provided ensures (done.filterMap Statement.ensure) s.needs ∧
      (∀ name ∈ s.dropped, ∀ e ∈ ensures, e.target = .relation name →
        ∀ o ∈ e.object, o.isIndex = true) ∧ s.Fits ∧
      ∀ row ∈ s.clubAliases, ∃ code ∈ done.flatMap Statement.clubCodes,
        code.club_code = row.club_code)
    ⟨fun ⟨a, b, c, d⟩ => ⟨a, b, c, d⟩, fun ⟨a, b, c, d⟩ => ⟨a, b, c, d⟩⟩

theorem uniqueObjects : Ensure.UniqueObjects ensures := by decide +kernel

theorem prepared : Ordered Prepared [] migrations := by decide +kernel

/-! ### What every start keeps -/

/-- The rows that the statements insert are there, or others of their keys. -/
structure Seeded (db : Db) (done : List Statement) : Prop where
  codes : ∀ row ∈ done.flatMap Statement.clubCodes, db.club_codes.Known row.club_code
  aliases : ∀ row ∈ done.flatMap Statement.clubAliases, db.club_aliases.Known row.clubAlias

/-- A start that has come to the rest of the statements. -/
def Underway (db : Db) (rest : List Statement) : Prop :=
  ∃ done found, migrations = done ++ rest ∧ Ensure.Consistent ensures found ∧
    db.objects = (done.filterMap Statement.ensure).foldl Ensure.apply found ∧ Seeded db done

def PhaseInv (db : Db) : Phase → Prop
  | .idle => True
  | .running rest => rest ≠ [] ∧ Underway db rest
  | .failed _ => False
  | .done => db.objects = migrated

structure Inv (c : Startup) : Prop where
  consistent : Ensure.Consistent ensures c.db.objects
  invalid : ∀ name, c.db.invalid name = true →
    (∃ s ∈ migrations, s.concurrentIndex = some name) ∧
      (c.db.objects (.relation name)).isSome = true
  phase : PhaseInv c.db c.phase

variable {db db' : Db} {s : Statement} {rest : List Statement} {c c' : Startup} {a : Action}
  {as : List Action} {name : String}

theorem ensures_of_mem (h : s ∈ migrations) : ∀ e ∈ s.ensure.toList, e ∈ ensures :=
  fun _ he => List.mem_filterMap.mpr ⟨s, h, Option.mem_toList.mp he⟩

theorem Underway.mem (h : Underway db (s :: rest)) : s ∈ migrations := by
  obtain ⟨done, _, hmigrations, _⟩ := h
  rw [hmigrations]
  exact List.mem_append_right _ List.mem_cons_self

theorem Underway.prepared (h : Underway db (s :: rest)) :
    Ensure.Ready db.objects s.needs ∧ Db.Refers db.club_codes s.clubAliases ∧
      ∃ done, Prepared done s := by
  obtain ⟨done, found, hmigrations, hfound, hobjects, hseeded⟩ := h
  have hprepared : Prepared done s := Ordered.apply (hmigrations ▸ Startup.prepared)
  have hdone : ∀ e ∈ done.filterMap Statement.ensure, e ∈ ensures := by
    intro e he
    obtain ⟨s', hs', hensure⟩ := List.mem_filterMap.mp he
    refine List.mem_filterMap.mpr ⟨s', ?_, hensure⟩
    rw [hmigrations]
    exact List.mem_append_left _ hs'
  refine ⟨?_, fun row hrow => ?_, done, hprepared⟩
  · rw [hobjects]
    exact Ensure.ready_of_provided uniqueObjects hfound hdone hprepared.needs
  · obtain ⟨code, hcode, hkey⟩ := hprepared.refers row hrow
    exact hkey ▸ hseeded.codes code hcode

/-- The next statement is executed without an error. -/
theorem Underway.exec (h : Underway db (s :: rest))
    (hconsistent : Ensure.Consistent ensures db.objects) : ∃ db', s.exec db = some db' := by
  obtain ⟨hready, hrefers, done, hprepared⟩ := h.prepared
  refine Statement.exec_of_ready hready (fun name hname o ho => ?_) hprepared.fits hrefers
  obtain ⟨e, he, htarget, hobject⟩ := hconsistent _ o ho
  exact hprepared.index name hname e he htarget o hobject

theorem Seeded.step {done : List Statement} (h : Seeded db done) (heffect : s.Effect db db') :
    Seeded db' (done ++ [s]) := by
  constructor
  · intro row hrow
    rw [List.flatMap_append, List.flatMap_singleton, List.mem_append] at hrow
    rw [heffect.club_codes, Keyed.known_foldl_add]
    exact hrow.imp (h.codes row) fun hrow => ⟨row, hrow, rfl⟩
  · intro row hrow
    rw [List.flatMap_append, List.flatMap_singleton, List.mem_append] at hrow
    rw [heffect.club_aliases, Keyed.known_foldl_add]
    exact hrow.imp (h.aliases row) fun hrow => ⟨row, hrow, rfl⟩

theorem Underway.step (h : Underway db (s :: rest)) (heffect : s.Effect db db') :
    Underway db' rest := by
  obtain ⟨done, found, hmigrations, hfound, hobjects, hseeded⟩ := h
  refine ⟨done ++ [s], found, ?_, hfound, ?_, hseeded.step heffect⟩
  · rw [hmigrations, List.append_assoc, List.singleton_append]
  · rw [heffect.objects, hobjects, List.filterMap_append, List.foldl_append]
    congr 1

/-- Whatever the start has found, there is now what one on an empty database makes. -/
theorem Underway.migrated (h : Underway db []) : db.objects = migrated := by
  obtain ⟨done, found, hmigrations, hfound, hobjects, _⟩ := h
  rw [List.append_nil] at hmigrations
  rw [hobjects, ← hmigrations]
  exact Ensure.foldl_apply_of_consistent uniqueObjects hfound

theorem Underway.seeded (h : Underway db []) : Seeded db migrations := by
  obtain ⟨done, found, hmigrations, _, _, hseeded⟩ := h
  rw [List.append_nil] at hmigrations
  exact hmigrations ▸ hseeded

theorem underway_start (hconsistent : Ensure.Consistent ensures db.objects) :
    Underway db migrations :=
  ⟨[], db.objects, rfl, hconsistent, rfl, fun _ h => absurd h List.not_mem_nil,
    fun _ h => absurd h List.not_mem_nil⟩

theorem phaseInv_next (h : Underway db rest) : PhaseInv db (.next rest) := by
  cases rest with
  | nil => exact h.migrated
  | cons s rest => exact ⟨List.cons_ne_nil s rest, h⟩

theorem Inv.statement (hinv : Inv c) (hphase : c.phase = .running (s :: rest)) :
    ∃ db', s.exec c.db = some db' ∧ Underway db' rest ∧ Inv ⟨db', .next rest⟩ := by
  have hunderway : Underway c.db (s :: rest) := by
    have := hinv.phase
    rw [hphase] at this
    exact this.2
  obtain ⟨db', hexec⟩ := hunderway.exec hinv.consistent
  have heffect := Statement.exec_effect hexec
  have hrest := hunderway.step heffect
  refine ⟨db', hexec, hrest, ?_, fun name hname => ?_, phaseInv_next hrest⟩
  · show Ensure.Consistent ensures db'.objects
    rw [heffect.objects]
    exact hinv.consistent.foldl (ensures_of_mem hunderway.mem)
  · obtain ⟨hbefore, hdropped⟩ :=
      heffect.invalid_before (fun h => (hinv.invalid name h).2) hname
    obtain ⟨hconcurrent, hthere⟩ := hinv.invalid name hbefore
    exact ⟨hconcurrent, heffect.isSome hthere hdropped⟩

theorem Inv.halfway (hinv : Inv c) (hmem : s ∈ migrations) (h : s.halfway c.db = some db') :
    Inv ⟨db', .idle⟩ := by
  obtain ⟨index, hindex, hinvalid, hthere, hobjects, _, _⟩ := Statement.halfway_effect h
  refine ⟨?_, fun name hname => ?_, trivial⟩
  · show Ensure.Consistent ensures db'.objects
    obtain hsame | ⟨_, happly⟩ := hobjects
    · rw [hsame]
      exact hinv.consistent
    · rw [happly]
      exact hinv.consistent.foldl (ensures_of_mem hmem)
  · by_cases hne : name = index
    · subst hne
      exact ⟨⟨s, hmem, hindex⟩, hthere⟩
    · have hname' : db'.invalid name = true := hname
      rw [hinvalid, Function.update_of_ne hne] at hname'
      obtain ⟨hconcurrent, hbefore⟩ := hinv.invalid name hname'
      refine ⟨hconcurrent, ?_⟩
      show (db'.objects (.relation name)).isSome = true
      obtain hsame | ⟨hdropped, happly⟩ := hobjects
      · rw [hsame]
        exact hbefore
      · rw [happly]
        refine Ensure.isSome_foldl_apply (Statement.stays_of_not_dropped ?_) (.inl hbefore)
        rw [hdropped]
        exact fun h => by cases h

/-- The same objects, and while the migrations run no row less. -/
theorem PhaseInv.of_keeps {phase : Phase} (h : PhaseInv db phase)
    (hobjects : db'.objects = db.objects) (hkeeps : ∀ rest, phase = .running rest →
      (∀ k, db.club_codes.Known k → db'.club_codes.Known k) ∧
        ∀ k, db.club_aliases.Known k → db'.club_aliases.Known k) : PhaseInv db' phase := by
  cases phase with
  | idle => trivial
  | failed s => exact h
  | done => exact hobjects.trans h
  | running rest =>
      obtain ⟨hrest, done, found, hmigrations, hfound, hbefore, hseeded⟩ := h
      obtain ⟨hcodes, haliases⟩ := hkeeps rest rfl
      exact ⟨hrest, done, found, hmigrations, hfound, hobjects.trans hbefore,
        fun row hrow => hcodes _ (hseeded.codes row hrow),
        fun row hrow => haliases _ (hseeded.aliases row hrow)⟩

theorem Inv.step (hinv : Inv c) (hkeeps : KeepsRows c a) (hexec : system.exec c a = some c') :
    Inv c' := by
  change exec c a = some c' at hexec
  cases a with
  | start =>
      rw [exec] at hexec
      split at hexec
      · cases hexec
      · obtain rfl := Option.some.inj hexec
        exact ⟨hinv.consistent, hinv.invalid, List.cons_ne_nil _ _, underway_start hinv.consistent⟩
  | statement =>
      rw [exec] at hexec
      split at hexec
      · rename_i s rest hphase
        obtain ⟨db', hs, _, hnext⟩ := hinv.statement hphase
        rw [hs] at hexec
        obtain rfl := Option.some.inj hexec
        exact hnext
      · cases hexec
  | crash =>
      rw [exec] at hexec
      split at hexec
      · obtain rfl := Option.some.inj hexec
        exact ⟨hinv.consistent, hinv.invalid, trivial⟩
      · cases hexec
  | halfway =>
      rw [exec] at hexec
      split at hexec
      · rename_i s rest hphase
        obtain ⟨db', hs, rfl⟩ := Option.map_eq_some_iff.mp hexec
        have hphaseInv := hinv.phase
        rw [hphase] at hphaseInv
        exact hinv.halfway hphaseInv.2.mem hs
      · cases hexec
  | edit codes aliases =>
      rw [exec] at hexec
      split at hexec
      · obtain rfl := Option.some.inj hexec
        exact ⟨hinv.consistent, hinv.invalid, hinv.phase.of_keeps rfl hkeeps⟩
      · cases hexec
  | rebuild name =>
      obtain rfl := Option.some.inj hexec
      refine ⟨hinv.consistent, fun other hother => ?_,
        hinv.phase.of_keeps rfl fun _ _ => ⟨fun _ => id, fun _ => id⟩⟩
      have hother' : Function.update c.db.invalid name false other = true := hother
      by_cases hne : other = name
      · rw [hne, Function.update_self] at hother'
        cases hother'
      · rw [Function.update_of_ne hne] at hother'
        exact hinv.invalid other hother'

theorem inv_of_reach (hreach : system.Reach KeepsRows c) : Inv c := by
  refine hreach.invariant ?_ fun c a c' hinv hkeeps hexec => hinv.step hkeeps hexec
  intro c hc
  obtain rfl := hc
  exact ⟨fun _ _ h => (by cases h), fun _ h => (by cases h), trivial⟩

end Startup

end PureplayIngest.Migrations
