import PureplayIngest.Migrations.Startup

/-!
The migrations can be executed at every start.

However often a start was cut short, and whatever the operators have written
meanwhile, the next one is not hindered: no statement fails, the catalogue is in
the end as after one run on an empty database, and every alias that is shipped has
a row. What a start does not mend is an index that an earlier one has left invalid,
since `IF NOT EXISTS` finds its name.
-/

namespace PureplayIngest.Migrations.Startup

open Lib

variable {db db' : Db} {s : Statement} {done rest : List Statement} {c c' : Startup} {a : Action}
  {as : List Action} {name : String}

/-! ### Completion -/

/-- The rows of `c` are there in `c'`, as they were. -/
def RowsKept (c c' : Startup) : Prop :=
  (∀ row ∈ c.db.club_codes.entries, row ∈ c'.db.club_codes.entries) ∧
    ∀ row ∈ c.db.club_aliases.entries, row ∈ c'.db.club_aliases.entries

theorem RowsKept.trans {c₁ c₂ c₃ : Startup} (h : RowsKept c₁ c₂) (h' : RowsKept c₂ c₃) :
    RowsKept c₁ c₃ :=
  ⟨fun row hrow => h'.1 row (h.1 row hrow), fun row hrow => h'.2 row (h.2 row hrow)⟩

theorem rowsKept_of_effect {phase : Phase} (h : s.Effect c.db db') : RowsKept c ⟨db', phase⟩ := by
  constructor
  · intro row hrow
    show row ∈ db'.club_codes.entries
    rw [h.club_codes]
    exact Keyed.mem_foldl_add hrow
  · intro row hrow
    show row ∈ db'.club_aliases.entries
    rw [h.club_aliases]
    exact Keyed.mem_foldl_add hrow

theorem exec_start (hphase : c.phase = .idle ∨ c.phase = .done) :
    system.exec c .start = some ⟨c.db, .running migrations⟩ := by
  show exec c .start = _
  obtain hphase | hphase := hphase
  · rw [exec, hphase]
  · rw [exec, hphase]

theorem exec_statement (hphase : c.phase = .running (s :: rest)) (hexec : s.exec c.db = some db') :
    system.exec c .statement = some ⟨db', .next rest⟩ := by
  show exec c .statement = _
  rw [exec, hphase]
  simp only [hexec]

/-- The statements of a start, as far as it is not cut short. -/
theorem Inv.advance (hinv : Inv c) (hphase : c.phase = .next (done ++ rest)) :
    ∃ c', system.execAll c (List.replicate done.length .statement) = some c' ∧
      c'.phase = .next rest ∧ Inv c' ∧ RowsKept c c' ∧
      c'.db.objects = (done.filterMap Statement.ensure).foldl Ensure.apply c.db.objects := by
  induction done generalizing c with
  | nil => exact ⟨c, rfl, hphase, hinv, ⟨fun _ => id, fun _ => id⟩, rfl⟩
  | cons s done ih =>
      obtain ⟨db', hexec, _, hnext⟩ := hinv.statement hphase
      have heffect := Statement.exec_effect hexec
      obtain ⟨c', hall, hphase', hinv', hkept, hobjects⟩ := ih hnext rfl
      refine ⟨c', ?_, hphase', hinv', (rowsKept_of_effect heffect).trans hkept, ?_⟩
      · rw [List.length_cons, List.replicate_succ]
        exact (System.execAll_cons (exec_statement hphase hexec)).trans hall
      · rw [hobjects, List.filterMap_cons, heffect.objects]
        cases s.ensure with
        | none => rfl
        | some e => rfl

theorem Inv.next (hinv : Inv c) (hphase : c.phase = .running rest) :
    c.phase = .next (rest ++ []) := by
  have hrest := hinv.phase
  rw [hphase] at hrest
  rw [List.append_nil, hphase]
  cases rest with
  | nil => exact absurd rfl hrest.1
  | cons s rest => rfl

/-- The statement that completes a start leaves every row that the files insert, or
another of its key. -/
theorem Inv.seeded (hinv : Inv c) (hexec : system.exec c .statement = some c')
    (hdone : c'.phase = .done) : Seeded c'.db migrations := by
  change exec c .statement = some c' at hexec
  rw [exec] at hexec
  split at hexec
  · rename_i s rest hphase
    obtain ⟨db', hs, hunderway, _⟩ := hinv.statement hphase
    rw [hs] at hexec
    obtain rfl := Option.some.inj hexec
    cases rest with
    | nil => exact hunderway.seeded
    | cons s' rest => cases hdone
  · cases hexec

/-- Whatever has been before: no statement fails, a start that nothing cuts short
completes and keeps the rows that are there, and when it has completed the catalogue
is that of one run on an empty database. -/
theorem migrations_converge (hreach : system.Reach KeepsRows c) :
    (∀ s, c.phase ≠ .failed s) ∧
      (∀ rest, c.phase = .running rest →
        ∃ c', system.execAll c (List.replicate rest.length .statement) = some c' ∧
          c'.phase = .done ∧ RowsKept c c') ∧
      (c.phase = .done → c.db.objects = migrated) ∧
      ∀ c', system.exec c .statement = some c' → c'.phase = .done → Seeded c'.db migrations := by
  have hinv := inv_of_reach hreach
  refine ⟨fun s hs => ?_, fun rest hphase => ?_, fun hdone => ?_, fun c' => hinv.seeded⟩
  · have hphase := hinv.phase
    rw [hs] at hphase
    exact hphase
  · obtain ⟨c', hall, hdone, _, hkept, _⟩ := hinv.advance (hinv.next hphase)
    exact ⟨c', hall, hdone, hkept⟩
  · have hphase := hinv.phase
    rw [hdone] at hphase
    exact hphase

/-! ### Indexes left invalid -/

/-- Of the indexes that are built or dropped `CONCURRENTLY`, one is there in the end. -/
theorem concurrent_index_there : ∀ s ∈ migrations, ∀ name ∈ s.concurrentIndex,
    (migrated (.relation name)).isSome = true →
      name = "user_identities_canonical_user_id_created" := by
  decide +kernel

theorem not_dropped : ∀ s ∈ migrations,
    s.dropped ≠ some "user_identities_canonical_user_id_created" := by
  decide +kernel

theorem invalid_of_effect (h : s.Effect db db') (hdropped : s.dropped ≠ some name)
    (hinvalid : db.invalid name = true) : db'.invalid name = true := by
  obtain ⟨hsame, _⟩ | ⟨dropped, hs, hupdate⟩ := h.invalid
  · rw [hsame]
    exact hinvalid
  · rw [hupdate, Function.update_of_ne]
    · exact hinvalid
    · rintro rfl
      exact hdropped hs

/-- Only a rebuild makes an index valid that the files never drop. -/
theorem Inv.invalid_step (hinv : Inv c) (hdropped : ∀ s ∈ migrations, s.dropped ≠ some name)
    (hrebuild : a ≠ .rebuild name) (hexec : system.exec c a = some c')
    (hinvalid : c.db.invalid name = true) : c'.db.invalid name = true := by
  change exec c a = some c' at hexec
  cases a with
  | start =>
      rw [exec] at hexec
      split at hexec
      · cases hexec
      · obtain rfl := Option.some.inj hexec
        exact hinvalid
  | statement =>
      rw [exec] at hexec
      split at hexec
      · rename_i s rest hphase
        have hunderway := hinv.phase
        rw [hphase] at hunderway
        split at hexec
        · rename_i db' hs
          obtain rfl := Option.some.inj hexec
          exact invalid_of_effect (Statement.exec_effect hs) (hdropped s hunderway.2.mem) hinvalid
        · obtain rfl := Option.some.inj hexec
          exact hinvalid
      · cases hexec
  | crash =>
      rw [exec] at hexec
      split at hexec
      · obtain rfl := Option.some.inj hexec
        exact hinvalid
      · cases hexec
  | halfway =>
      rw [exec] at hexec
      split at hexec
      · obtain ⟨db', hs, rfl⟩ := Option.map_eq_some_iff.mp hexec
        obtain ⟨index, _, hupdate, _⟩ := Statement.halfway_effect hs
        show db'.invalid name = true
        rw [hupdate]
        by_cases hne : name = index
        · rw [hne, Function.update_self]
        · rw [Function.update_of_ne hne]
          exact hinvalid
      · cases hexec
  | edit codes aliases =>
      rw [exec] at hexec
      split at hexec
      · obtain rfl := Option.some.inj hexec
        exact hinvalid
      · cases hexec
  | rebuild other =>
      obtain rfl := Option.some.inj hexec
      show Function.update c.db.invalid other false name = true
      rw [Function.update_of_ne]
      · exact hinvalid
      · rintro rfl
        exact hrebuild rfl

theorem Inv.invalid_run (hinv : Inv c) (hdropped : ∀ s ∈ migrations, s.dropped ≠ some name)
    (hrun : system.Run (fun c a => KeepsRows c a ∧ a ≠ .rebuild name) c as c')
    (hinvalid : c.db.invalid name = true) : c'.db.invalid name = true := by
  have hboth : Inv c' ∧ c'.db.invalid name = true := by
    refine hrun.invariant (I := fun c => Inv c ∧ c.db.invalid name = true) ?_ ⟨hinv, hinvalid⟩
    intro c a c' hc hguard hexec
    exact ⟨hc.1.step hguard.1 hexec, hc.1.invalid_step hdropped hguard.2 hexec hc.2⟩
  exact hboth.2

/-- When a start has completed and an index is invalid all the same, it is the one
that `listByCanonicalUser` reads by, and it remains invalid through all later starts
until it is rebuilt by hand. -/
theorem invalid_index_kept (hreach : system.Reach KeepsRows c) (hdone : c.phase = .done)
    (hinvalid : c.db.invalid name = true)
    (hrun : system.Run (fun c a => KeepsRows c a ∧ a ≠ .rebuild name) c as c') :
    name = "user_identities_canonical_user_id_created" ∧ c'.db.invalid name = true := by
  have hinv := inv_of_reach hreach
  obtain ⟨⟨s, hs, hindex⟩, hthere⟩ := hinv.invalid name hinvalid
  have hobjects := hinv.phase
  rw [hdone] at hobjects
  rw [hobjects] at hthere
  obtain rfl := concurrent_index_there s hs name hindex hthere
  exact ⟨rfl, hinv.invalid_run not_dropped hrun hinvalid⟩

/-! ### A start that was cut short -/

/-- A start that ends while the last index is being built, and one that completes. -/
def cutShort : List Action :=
  .start :: List.replicate migrations.dropLast.length .statement ++
    .halfway :: .start :: List.replicate migrations.length .statement

def afterCutShort : Startup := (system.execAll ⟨.empty, .idle⟩ cutShort).getD ⟨.empty, .idle⟩

theorem guard_of_mem_cutShort (h : a ∈ cutShort) (c : Startup) :
    KeepsRows c a ∧ a ≠ .rebuild "user_identities_canonical_user_id_created" := by
  cases a with
  | edit codes aliases => simp [cutShort] at h
  | rebuild name => simp [cutShort] at h
  | start | statement | crash | halfway => exact ⟨trivial, fun h => by cases h⟩

theorem not_target_before : ∀ s ∈ migrations.dropLast, ∀ e ∈ s.ensure,
    e.target ≠ .relation "user_identities_canonical_user_id_created" := by
  decide +kernel

/-- The last index is left invalid when the start ends while it is being built. -/
theorem halfway_of_last {definition : Index} (hinv : Inv c)
    (hphase : c.phase = .running [.createIndex true name definition])
    (habsent : c.db.objects (.relation name) = none) :
    ∃ c', system.exec c .halfway = some c' ∧ c'.phase = .idle ∧ c'.db.invalid name = true := by
  have hunderway := hinv.phase
  rw [hphase] at hunderway
  have hready := hunderway.2.prepared.1
  have hhalf : ∃ db', (Statement.createIndex true name definition).halfway c.db = some db' := by
    rw [Statement.halfway, habsent, if_neg, if_pos hready]
    · exact ⟨_, rfl⟩
    · exact fun h => absurd h (by simp)
  obtain ⟨db', hdb'⟩ := hhalf
  obtain ⟨index, hindex, hupdate, _⟩ := Statement.halfway_effect hdb'
  obtain rfl := Option.some.inj hindex
  refine ⟨⟨db', .idle⟩, ?_, rfl, ?_⟩
  · show exec c .halfway = _
    rw [exec, hphase]
    exact congrArg (Option.map fun db => (⟨db, .idle⟩ : Startup)) hdb'
  · show db'.invalid name = true
    rw [hupdate, Function.update_self]

theorem afterCutShort_spec :
    system.Reach KeepsRows afterCutShort ∧ afterCutShort.phase = .done ∧
      afterCutShort.db.invalid "user_identities_canonical_user_id_created" = true := by
  have hinv₀ : Inv ⟨.empty, .idle⟩ := inv_of_reach (.init rfl)
  have hstart₀ : system.exec ⟨.empty, .idle⟩ .start = some ⟨.empty, .running migrations⟩ := rfl
  have hinv₁ := hinv₀.step (a := .start) trivial hstart₀
  have hphase₁ : (⟨.empty, .running migrations⟩ : Startup).phase =
      .next (migrations.dropLast ++ [.createIndex true "user_identities_canonical_user_id_created"
        (.mk "user_identities" [.asc "canonical_user_id", .asc "created_at"] false none)]) := rfl
  obtain ⟨c₂, hall₂, hphase₂, hinv₂, _, hobjects₂⟩ := hinv₁.advance hphase₁
  have habsent : c₂.db.objects (.relation "user_identities_canonical_user_id_created") = none := by
    rw [hobjects₂]
    refine Ensure.foldl_apply_of_not_mem fun e he => ?_
    obtain ⟨s, hs, hensure⟩ := List.mem_filterMap.mp he
    exact not_target_before s hs e hensure
  obtain ⟨c₃, hhalfway, hidle, hinvalid⟩ := halfway_of_last hinv₂ hphase₂ habsent
  have hstart := exec_start (.inl hidle)
  have hinv₄ := (hinv₂.step (a := .halfway) trivial hhalfway).step (a := .start) trivial hstart
  obtain ⟨c₅, hall₅, hdone, _, _, _⟩ := hinv₄.advance (hinv₄.next rfl)
  have hall : system.execAll ⟨.empty, .idle⟩ cutShort = some c₅ := by
    rw [cutShort, List.cons_append, System.execAll_cons hstart₀, System.execAll_append, hall₂,
      Option.bind_some, System.execAll_cons hhalfway, System.execAll_cons hstart, hall₅]
  have hafter : afterCutShort = c₅ := by rw [afterCutShort, hall, Option.getD_some]
  rw [hafter]
  refine ⟨⟨_, cutShort, rfl, System.run_of_execAll (fun a h c => ?_) hall⟩, hdone, ?_⟩
  · exact (guard_of_mem_cutShort h c).1
  · refine hinv₄.invalid_run ?_ (System.run_of_execAll (fun a h c => ?_) hall₅) hinvalid
    · exact not_dropped
    · refine guard_of_mem_cutShort ?_ c
      rw [cutShort, List.mem_append]
      exact .inr (List.mem_cons_of_mem _ (List.mem_cons_of_mem _ h))

theorem migrations_converge_cutShort :
    (∀ s, afterCutShort.phase ≠ .failed s) ∧
      (∀ rest, afterCutShort.phase = .running rest →
        ∃ c', system.execAll afterCutShort (List.replicate rest.length .statement) = some c' ∧
          c'.phase = .done ∧ RowsKept afterCutShort c') ∧
      (afterCutShort.phase = .done → afterCutShort.db.objects = migrated) ∧
      ∀ c', system.exec afterCutShort .statement = some c' → c'.phase = .done →
        Seeded c'.db migrations :=
  migrations_converge afterCutShort_spec.1

/-- The next start does not mend the index. -/
theorem invalid_index_kept_cutShort :
    ∃ c', system.execAll afterCutShort
        (.start :: List.replicate migrations.length .statement) = some c' ∧ c'.phase = .done ∧
      c'.db.invalid "user_identities_canonical_user_id_created" = true := by
  obtain ⟨hreach, hdone, hinvalid⟩ := afterCutShort_spec
  have hstart := exec_start (.inr hdone)
  have hinv := (inv_of_reach hreach).step (a := .start) trivial hstart
  obtain ⟨c', hrest, hphase, _⟩ := hinv.advance (hinv.next rfl)
  have hall : system.execAll afterCutShort
      (.start :: List.replicate migrations.length .statement) = some c' :=
    (System.execAll_cons hstart).trans hrest
  have hrun : system.Run (fun c a => KeepsRows c a ∧
      a ≠ .rebuild "user_identities_canonical_user_id_created") afterCutShort
      (.start :: List.replicate migrations.length .statement) c' := by
    refine System.run_of_execAll (fun a ha c => guard_of_mem_cutShort ?_ c) hall
    rw [cutShort, List.mem_append]
    exact .inr (List.mem_cons_of_mem _ ha)
  exact ⟨c', hall, hphase, (invalid_index_kept hreach hdone hinvalid hrun).2⟩

end PureplayIngest.Migrations.Startup
