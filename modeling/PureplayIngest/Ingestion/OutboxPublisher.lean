import Mathlib.Data.List.Nodup
import PureplayIngest.Ingestion.ShotsEffect
import PureplayIngest.Webhooks.Parsed

/-!
`OutboxPublisherService.publishPending`, beside the rest of the service.

A cycle is one transaction: it claims rows, emits their events one after the
other, deletes the rows whose event did not make a listener throw, and
commits. Any number of cycles run at once, in any number of workers, and each
can end at every point without its commit, as it does when its worker dies.

A claimed row is locked until the transaction is over, and other cycles pass
over it.
-/

namespace PureplayIngest

open Shared.Domain Shared.Kysely Identity Ingestion Lib Webhooks

namespace Outbox

/-- What a cycle has done: the rows its SELECT returned, the events it has
emitted, each with whether a listener threw, and the ids it is to delete. -/
structure Cycle where
  rows : List OutboxEvent
  emissions : List (OutboxEvent × Bool)
  successfulIds : List ℕ
  deriving DecidableEq

def Cycle.empty : Cycle := ⟨[], [], []⟩

inductive PublisherState
  | select
  | emit (cycle : Cycle) (remaining : List OutboxEvent)
  | delete (cycle : Cycle)
  | commit (cycle : Cycle)
  | committed (cycle : Cycle)
  | aborted (cycle : Cycle)
  deriving DecidableEq

/-- What a step of a cycle leaves open: the rows that are returned, whether a
listener throws, and that the transaction is aborted. -/
inductive PublisherLabel
  | rows (batch : List OutboxEvent)
  | emitted (threw : Bool)
  | ok
  | abort
  deriving DecidableEq

/-- The cycle that holds the lock on the row with an id. -/
abbrev Locks := ℕ → Option ℕ

def Locks.claim (locks : Locks) (cycle : ℕ) (rows : List OutboxEvent) : Locks :=
  fun id => if id ∈ rows.map (·.id) then some cycle else locks id

def Locks.release (locks : Locks) (cycle : ℕ) : Locks :=
  fun id => if locks id = some cycle then none else locks id

structure OutboxWorld extends World where
  locks : Locks

def batchSize : ℕ := 100

/-- `ORDER BY created_at ASC LIMIT 100`, of the rows that are not locked. -/
def OldestUnlocked (events batch : List OutboxEvent) : Prop :=
  (∀ event ∈ batch, event ∈ events) ∧ (batch.map (·.id)).Nodup ∧
    batch.Pairwise (fun a b => a.created_at ≤ b.created_at) ∧
    batch.length = min batchSize events.length ∧
    ∀ event ∈ events, event ∉ batch → ∀ other ∈ batch, other.created_at ≤ event.created_at

instance (events batch : List OutboxEvent) : Decidable (OldestUnlocked events batch) :=
  inferInstanceAs (Decidable (_ ∧ _ ∧ _ ∧ _ ∧ _))

def OutboxWorld.unlocked (w : OutboxWorld) : List OutboxEvent :=
  w.db.outbox_events.filter fun event => w.locks event.id = none

/-- One round of the loop. A row of another type is not emitted, but deleted. -/
def Cycle.publish (cycle : Cycle) (row : OutboxEvent) (threw : Bool) : Cycle :=
  if row.event_type = "shot.persisted" then
    { cycle with
      emissions := cycle.emissions ++ [(row, threw)]
      successfulIds := if threw then cycle.successfulIds else cycle.successfulIds ++ [row.id] }
  else { cycle with successfulIds := cycle.successfulIds ++ [row.id] }

/-- Where a cycle goes on with these rows to emit. -/
def afterEmit (cycle : Cycle) : List OutboxEvent → PublisherState
  | [] => if cycle.successfulIds = [] then .commit cycle else .delete cycle
  | row :: rows => .emit cycle (row :: rows)

def deleteEvents (db : Database) (ids : List ℕ) : Database :=
  { db with outbox_events := db.outbox_events.filter fun event => event.id ∉ ids }

/-- The next step of cycle `i`. What a transaction deletes is gone for the
others once it commits. -/
def PublisherState.step (i : ℕ) (w : OutboxWorld) :
    PublisherState → PublisherLabel → Option (OutboxWorld × PublisherState)
  | .select, .rows batch =>
      if OldestUnlocked w.unlocked batch then
        some ({ w with locks := w.locks.claim i batch },
          if batch = [] then .commit .empty else .emit { Cycle.empty with rows := batch } batch)
      else none
  | .emit cycle (row :: rows), .emitted threw => some (w, afterEmit (cycle.publish row threw) rows)
  | .delete cycle, .ok => some (w, .commit cycle)
  | .commit cycle, .ok =>
      some ({ w with db := deleteEvents w.db cycle.successfulIds, locks := w.locks.release i },
        .committed cycle)
  | .select, .abort => some (w, .aborted .empty)
  | .emit cycle _, .abort => some ({ w with locks := w.locks.release i }, .aborted cycle)
  | .delete cycle, .abort => some ({ w with locks := w.locks.release i }, .aborted cycle)
  | .commit cycle, .abort => some ({ w with locks := w.locks.release i }, .aborted cycle)
  | _, _ => none

inductive OutboxCall
  | service (call : Call)
  | publisher (s : PublisherState)

inductive OutboxLabel
  | service (label : Label)
  | publisher (label : PublisherLabel)

def isEventOf (id : String) (event : OutboxEvent) : Prop :=
  event.event_type = "shot.persisted" ∧ event.payload.canonical_shot_id = id

instance (id : String) (event : OutboxEvent) : Decidable (isEventOf id event) :=
  inferInstanceAs (Decidable (_ ∧ _))

def step (deps : Deps) (i : ℕ) (w : OutboxWorld) :
    OutboxCall → OutboxLabel → Option (OutboxWorld × OutboxCall)
  | .service call, .service label =>
      (Service.step deps w.toWorld call label).map fun (world, call) =>
        ({ w with toWorld := world }, .service call)
  | .publisher s, .publisher label =>
      (s.step i w label).map fun (w, s) => (w, .publisher s)
  | _, _ => none

def event (w : OutboxWorld) (x : Event) : Option OutboxWorld :=
  (Service.event w.toWorld x).map fun world => { w with toWorld := world }

def program (deps : Deps) : Program ℕ OutboxWorld OutboxCall OutboxLabel Event where
  step := step deps
  env := event

abbrev Config := Lib.Config ℕ OutboxWorld OutboxCall

abbrev Action := Lib.Action ℕ OutboxCall OutboxLabel Event

/-- The runs from tables in which every event has an id of its own and no row is locked. -/
def system (deps : Deps) : System Config Action :=
  (program deps).system fun w =>
    (w.db.outbox_events.map (·.id)).Nodup ∧
      (∀ event ∈ w.db.outbox_events, event.id < w.db.nextEventId) ∧ ∀ id, w.locks id = none

/-- Calls and cycles start at their beginning. -/
def Starts : Action → Prop
  | .spawn _ (.service call) => call.Initial
  | .spawn _ (.publisher s) => s = .select
  | _ => True

/-! ### What a cycle knows of its rows -/

namespace PublisherState

def cycle : PublisherState → Cycle
  | .select => .empty
  | .emit cycle _ => cycle
  | .delete cycle => cycle
  | .commit cycle => cycle
  | .committed cycle => cycle
  | .aborted cycle => cycle

/-- The transaction is open and has claimed its rows. -/
def IsOpen : PublisherState → Prop
  | .emit _ _ => True
  | .delete _ => True
  | .commit _ => True
  | _ => False

def remaining : PublisherState → List OutboxEvent
  | .emit _ rows => rows
  | _ => []

end PublisherState

/-- A cycle has dealt with the rows before the remaining ones: it has emitted
none but these, and is to delete those whose emit did not throw. -/
structure Recorded (cycle : Cycle) (remaining : List OutboxEvent) : Prop where
  ids : (cycle.rows.map (·.id)).Nodup
  done : ∃ rows, cycle.rows = rows ++ remaining ∧ (∀ p ∈ cycle.emissions, p.1 ∈ rows) ∧
    ∀ id ∈ cycle.successfulIds, ∃ row ∈ rows, row.id = id ∧
      (row.event_type = "shot.persisted" → (row, false) ∈ cycle.emissions)
  threw : ∀ row, (row, true) ∈ cycle.emissions → row.id ∉ cycle.successfulIds

/-- What a cycle knows. As long as it is open its rows are there, and locked. -/
structure PublisherInv (i : ℕ) (w : OutboxWorld) (s : PublisherState) : Prop where
  recorded : Recorded s.cycle s.remaining
  claimed : s.IsOpen → ∀ row ∈ s.cycle.rows, row ∈ w.db.outbox_events ∧ w.locks row.id = some i

theorem Recorded.empty : Recorded .empty [] where
  ids := List.nodup_nil
  done := ⟨[], rfl, by simp [Cycle.empty], by simp [Cycle.empty]⟩
  threw := by simp [Cycle.empty]

theorem Recorded.close {cycle : Cycle} {remaining : List OutboxEvent}
    (h : Recorded cycle remaining) :
    Recorded cycle [] := by
  obtain ⟨rows, hrows, hemitted, hids⟩ := h.done
  refine ⟨h.ids, ⟨rows ++ remaining, by rw [hrows, List.append_nil],
    fun p hp => List.mem_append_left _ (hemitted p hp), fun id hid => ?_⟩, h.threw⟩
  obtain ⟨row, hrow, heq⟩ := hids id hid
  exact ⟨row, List.mem_append_left _ hrow, heq⟩

/-- The next row is dealt with: new emissions are of it, and its id is new among those to delete. -/
theorem Recorded.extend {cycle : Cycle} {row : OutboxEvent} {rest : List OutboxEvent}
    (h : Recorded cycle (row :: rest)) {emissions : List (OutboxEvent × Bool)} {ids : List ℕ}
    (hold : ∀ p ∈ cycle.emissions, p ∈ emissions)
    (hnew : ∀ p ∈ emissions, p ∈ cycle.emissions ∨ p.1 = row)
    (hids : ∀ id ∈ ids, id ∈ cycle.successfulIds ∨ id = row.id ∧
      (row, true) ∉ emissions ∧ (row.event_type = "shot.persisted" → (row, false) ∈ emissions)) :
    Recorded { cycle with emissions := emissions, successfulIds := ids } rest := by
  obtain ⟨rows, hrows, hemitted, hdone⟩ := h.done
  -- An id is that of one row of the batch, so an older entry is not about this row.
  have hfresh : ∀ other ∈ rows, other.id ≠ row.id := by
    intro other hother heq
    have hnodup := h.ids
    rw [hrows, List.map_append, List.map_cons] at hnodup
    exact (List.nodup_append.mp hnodup).2.2 other.id (List.mem_map_of_mem hother) row.id
      List.mem_cons_self heq
  have hrow : row ∈ rows ++ [row] := List.mem_append_right _ (List.mem_singleton_self row)
  refine ⟨h.ids, ⟨rows ++ [row], ?_, fun p hp => ?_, fun id hid => ?_⟩, fun other hother hid => ?_⟩
  · rw [List.append_assoc, List.singleton_append]
    exact hrows
  · obtain hp | rfl := hnew p hp
    · exact List.mem_append_left _ (hemitted p hp)
    · exact hrow
  · obtain hid | ⟨rfl, _, hemit⟩ := hids id hid
    · obtain ⟨other, hother, heq, hemit⟩ := hdone id hid
      exact ⟨other, List.mem_append_left _ hother, heq, fun ht => hold _ (hemit ht)⟩
    · exact ⟨row, hrow, rfl, hemit⟩
  · obtain hother' | rfl := hnew _ hother
    · obtain hid | ⟨heq, _, _⟩ := hids _ hid
      · exact h.threw other hother' hid
      · exact hfresh other (hemitted _ hother') heq
    · obtain hid | ⟨_, hthrew, _⟩ := hids _ hid
      · obtain ⟨row', hrow', heq, _⟩ := hdone _ hid
        exact hfresh row' hrow' heq
      · exact hthrew hother

/-- One round of the loop. -/
theorem Recorded.publish {cycle : Cycle} {row : OutboxEvent} {rest : List OutboxEvent}
    (h : Recorded cycle (row :: rest)) (threw : Bool) :
    Recorded (cycle.publish row threw) rest := by
  have hnone : ∀ b, (row, b) ∉ cycle.emissions := by
    intro b hb
    obtain ⟨rows, hrows, hemitted, _⟩ := h.done
    have hnodup := h.ids
    rw [hrows, List.map_append, List.map_cons] at hnodup
    exact (List.nodup_append.mp hnodup).2.2 row.id (List.mem_map_of_mem (hemitted _ hb)) row.id
      List.mem_cons_self rfl
  have hlast : (row, threw) ∈ cycle.emissions ++ [(row, threw)] :=
    List.mem_append_right _ (List.mem_singleton_self _)
  rw [Cycle.publish]
  split
  · refine h.extend (fun p hp => List.mem_append_left _ hp) (fun p hp => ?_) fun id hid => ?_
    · exact (List.mem_append.mp hp).imp_right fun hp => congrArg Prod.fst (List.mem_singleton.mp hp)
    · cases threw with
      | true => exact .inl hid
      | false =>
          refine (List.mem_append.mp hid).imp_right fun hid =>
            ⟨List.mem_singleton.mp hid, fun hp => ?_, fun _ => hlast⟩
          obtain hp | hp := List.mem_append.mp hp
          · exact hnone true hp
          · exact absurd (Prod.mk.inj (List.mem_singleton.mp hp)).2 (by simp)
  · rename_i htype
    refine h.extend (fun p hp => hp) (fun p hp => .inl hp) fun id hid => ?_
    exact (List.mem_append.mp hid).imp_right fun hid =>
      ⟨List.mem_singleton.mp hid, hnone true, fun ht => absurd ht htype⟩

/-! ### What a step is -/

/-- The steps of a cycle, one by one. -/
inductive PublisherStep (i : ℕ) (w : OutboxWorld) :
    PublisherState → PublisherLabel → OutboxWorld → PublisherState → Prop
  | none (hnone : OldestUnlocked w.unlocked []) :
      PublisherStep i w .select (.rows []) { w with locks := w.locks.claim i [] } (.commit .empty)
  | claim {batch : List OutboxEvent} (hbatch : OldestUnlocked w.unlocked batch) (hne : batch ≠ []) :
      PublisherStep i w .select (.rows batch) { w with locks := w.locks.claim i batch }
        (.emit { Cycle.empty with rows := batch } batch)
  | emit (cycle : Cycle) (row : OutboxEvent) (rows : List OutboxEvent) (threw : Bool) :
      PublisherStep i w (.emit cycle (row :: rows)) (.emitted threw) w
        (afterEmit (cycle.publish row threw) rows)
  | delete (cycle : Cycle) : PublisherStep i w (.delete cycle) .ok w (.commit cycle)
  | commit (cycle : Cycle) :
      PublisherStep i w (.commit cycle) .ok
        { w with db := deleteEvents w.db cycle.successfulIds, locks := w.locks.release i }
        (.committed cycle)
  | abortSelect : PublisherStep i w .select .abort w (.aborted .empty)
  | abort {s : PublisherState} (hopen : s.IsOpen) :
      PublisherStep i w s .abort { w with locks := w.locks.release i } (.aborted s.cycle)

theorem PublisherState.step_cases {i : ℕ} {w w' : OutboxWorld} {s s' : PublisherState}
    {label : PublisherLabel} (h : s.step i w label = some (w', s')) :
    PublisherStep i w s label w' s' := by
  rw [PublisherState.step.eq_def] at h
  split at h
  · rename_i batch
    split at h
    · rename_i hbatch
      obtain ⟨rfl, rfl⟩ := Prod.mk.inj (Option.some.inj h)
      split
      · rename_i hnil
        subst hnil
        exact .none hbatch
      · rename_i hne
        exact .claim hbatch hne
    · exact absurd h (by simp)
  · obtain ⟨rfl, rfl⟩ := Prod.mk.inj (Option.some.inj h)
    exact .emit _ _ _ _
  · obtain ⟨rfl, rfl⟩ := Prod.mk.inj (Option.some.inj h)
    exact .delete _
  · obtain ⟨rfl, rfl⟩ := Prod.mk.inj (Option.some.inj h)
    exact .commit _
  · obtain ⟨rfl, rfl⟩ := Prod.mk.inj (Option.some.inj h)
    exact .abortSelect
  · obtain ⟨rfl, rfl⟩ := Prod.mk.inj (Option.some.inj h)
    exact .abort trivial
  · obtain ⟨rfl, rfl⟩ := Prod.mk.inj (Option.some.inj h)
    exact .abort trivial
  · obtain ⟨rfl, rfl⟩ := Prod.mk.inj (Option.some.inj h)
    exact .abort trivial
  · exact absurd h (by simp)

/-- A step of the service, or one of a cycle. -/
inductive Step (deps : Deps) (i : ℕ) (w : OutboxWorld) :
    OutboxCall → OutboxLabel → OutboxWorld → OutboxCall → Prop
  | service {call call' : Call} {label : Label} {world : World}
      (hstep : Service.step deps w.toWorld call label = some (world, call')) :
      Step deps i w (.service call) (.service label) { w with toWorld := world } (.service call')
  | publisher {s s' : PublisherState} {label : PublisherLabel} {w' : OutboxWorld}
      (hstep : PublisherStep i w s label w' s') :
      Step deps i w (.publisher s) (.publisher label) w' (.publisher s')

theorem step_cases {deps : Deps} {i : ℕ} {w w' : OutboxWorld} {call call' : OutboxCall}
    {label : OutboxLabel} (h : step deps i w call label = some (w', call')) :
    Step deps i w call label w' call' := by
  rw [step.eq_def] at h
  split at h
  · obtain ⟨⟨world, call'⟩, hstep, heq⟩ := Option.map_eq_some_iff.mp h
    obtain ⟨rfl, rfl⟩ := Prod.mk.inj heq
    exact .service hstep
  · obtain ⟨⟨w', s'⟩, hstep, heq⟩ := Option.map_eq_some_iff.mp h
    obtain ⟨rfl, rfl⟩ := Prod.mk.inj heq
    exact .publisher (PublisherState.step_cases hstep)
  · exact absurd h (by simp)

/-! ### Events and their ids -/

/-- Every event has an id of its own, from the sequence. -/
structure EventIds (db : Database) : Prop where
  nodup : (db.outbox_events.map (·.id)).Nodup
  below : ∀ event ∈ db.outbox_events, event.id < db.nextEventId

theorem EventIds.eq {db : Database} (h : EventIds db) {a b : OutboxEvent}
    (ha : a ∈ db.outbox_events) (hb : b ∈ db.outbox_events) (hid : a.id = b.id) : a = b :=
  List.inj_on_of_nodup_map h.nodup ha hb hid

theorem EventIds.of_same {db db' : Database} (h : EventIds db) (hsame : SameShotTables db db') :
    EventIds db' := by
  refine ⟨hsame.outbox_events ▸ h.nodup, fun event hevent => ?_⟩
  rw [hsame.nextEventId]
  exact h.below event (hsame.outbox_events ▸ hevent)

theorem EventIds.insertShot {db : Database} (h : EventIds db) (shot : NormalisedShot) :
    EventIds (Database.insertShot db shot) := by
  constructor
  · rw [Database.insertShot, Database.insertOutboxEvent, List.map_append, List.map_singleton,
      List.nodup_append]
    refine ⟨h.nodup, List.nodup_singleton _, fun id hid other hother heq => ?_⟩
    obtain ⟨event, hevent, rfl⟩ := List.mem_map.mp hid
    exact absurd (heq.trans (List.mem_singleton.mp hother)) (Nat.ne_of_lt (h.below event hevent))
  · intro event hevent
    show event.id < db.nextEventId + 1
    obtain hevent | hevent := List.mem_append.mp hevent
    · exact Nat.lt_succ_of_lt (h.below event hevent)
    · obtain rfl := List.mem_singleton.mp hevent
      exact Nat.lt_succ_self _

theorem EventIds.delete {db : Database} (h : EventIds db) (ids : List ℕ) :
    EventIds (deleteEvents db ids) where
  nodup := h.nodup.sublist (List.filter_sublist.map _)
  below event hevent := h.below event (List.mem_of_mem_filter hevent)

/-- A step of the service leaves the rows of the outbox as they are, and may add one. -/
theorem service_events {deps : Deps} {w : OutboxWorld} {world : World} {call call' : Call}
    {label : Label} (hstep : Service.step deps w.toWorld call label = some (world, call'))
    (hids : EventIds w.db) :
    EventIds world.db ∧ ∀ event ∈ w.db.outbox_events, event ∈ world.db.outbox_events := by
  cases step_tablesEffect hstep with
  | frame hsame =>
      refine ⟨hids.of_same hsame, fun event hevent => ?_⟩
      rw [hsame.outbox_events]
      exact hevent
  | insert job haccepted hkey hid hdb =>
      rw [hdb]
      exact ⟨hids.insertShot _, fun event hevent => List.mem_append_left _ hevent⟩
  | flag job shot id origin hdb =>
      rw [hdb]
      exact ⟨⟨hids.nodup, hids.below⟩, fun event hevent => hevent⟩
  | backfill pair user row hdb =>
      rw [hdb]
      exact ⟨⟨hids.nodup, hids.below⟩, fun event hevent => hevent⟩

/-! ### Claims are exclusive -/

theorem Locks.claim_of_mem {locks : Locks} {i : ℕ} {rows : List OutboxEvent} {row : OutboxEvent}
    (h : row ∈ rows) : locks.claim i rows row.id = some i :=
  if_pos (List.mem_map_of_mem h)

theorem Locks.claim_of_locked {locks : Locks} {i j id : ℕ} {rows : List OutboxEvent}
    (hrows : ∀ row ∈ rows, locks row.id = none) (h : locks id = some j) :
    locks.claim i rows id = some j := by
  rw [Locks.claim, if_neg, h]
  intro hid
  obtain ⟨row, hrow, rfl⟩ := List.mem_map.mp hid
  exact absurd ((hrows row hrow).symm.trans h) (by simp)

theorem Locks.release_of_other {locks : Locks} {i j id : ℕ} (hji : j ≠ i)
    (h : locks id = some j) : locks.release i id = some j := by
  rw [Locks.release, if_neg, h]
  exact fun heq => hji (Option.some.inj (h.symm.trans heq))

theorem OldestUnlocked.mem {w : OutboxWorld} {batch : List OutboxEvent}
    (h : OldestUnlocked w.unlocked batch) {row : OutboxEvent} (hrow : row ∈ batch) :
    row ∈ w.db.outbox_events ∧ w.locks row.id = none := by
  have hmem := h.1 row hrow
  rwa [OutboxWorld.unlocked, List.mem_filter, decide_eq_true_eq] at hmem

@[simp] theorem Cycle.publish_rows (cycle : Cycle) (row : OutboxEvent) (threw : Bool) :
    (cycle.publish row threw).rows = cycle.rows := by
  rw [Cycle.publish]
  split <;> rfl

theorem afterEmit_cycle (cycle : Cycle) (rows : List OutboxEvent) :
    (afterEmit cycle rows).cycle = cycle ∧ (afterEmit cycle rows).remaining = rows ∧
      (afterEmit cycle rows).IsOpen := by
  cases rows with
  | nil =>
      rw [afterEmit]
      split <;> exact ⟨rfl, rfl, trivial⟩
  | cons row rows => exact ⟨rfl, rfl, trivial⟩

/-- The ids a cycle is to delete are ids of rows it has claimed. -/
theorem Recorded.mem_rows {cycle : Cycle} {remaining : List OutboxEvent}
    (h : Recorded cycle remaining) {id : ℕ} (hid : id ∈ cycle.successfulIds) :
    ∃ row ∈ cycle.rows, row.id = id ∧
      (row.event_type = "shot.persisted" → (row, false) ∈ cycle.emissions) := by
  obtain ⟨rows, hrows, _, hids⟩ := h.done
  obtain ⟨row, hrow, heq⟩ := hids id hid
  exact ⟨row, hrows ▸ List.mem_append_left _ hrow, heq⟩

section

variable {deps : Deps} {i j : ℕ} {w w' : OutboxWorld} {s s' t : PublisherState}
  {label : PublisherLabel}

/-- A cycle's step keeps what it knows. -/
theorem PublisherStep.own (h : PublisherStep i w s label w' s') (hids : EventIds w.db)
    (hinv : PublisherInv i w s) : EventIds w'.db ∧ PublisherInv i w' s' := by
  cases h with
  | none hnone => exact ⟨hids, .empty, fun _ row hrow => absurd hrow List.not_mem_nil⟩
  | claim hbatch hne =>
      refine ⟨hids, ⟨hbatch.2.1, ⟨[], rfl, fun p hp => absurd hp List.not_mem_nil,
        fun id hid => absurd hid List.not_mem_nil⟩, fun row hrow => absurd hrow List.not_mem_nil⟩,
        fun _ row hrow => ?_⟩
      exact ⟨(hbatch.mem hrow).1, Locks.claim_of_mem hrow⟩
  | emit cycle row rows threw =>
      obtain ⟨hcycle, hremaining, _⟩ := afterEmit_cycle (cycle.publish row threw) rows
      refine ⟨hids, ?_, fun _ => ?_⟩
      · rw [hcycle, hremaining]
        exact hinv.recorded.publish threw
      · rw [hcycle, Cycle.publish_rows]
        exact hinv.claimed trivial
  | delete cycle => exact ⟨hids, hinv.recorded, fun _ => hinv.claimed trivial⟩
  | commit cycle => exact ⟨hids.delete _, hinv.recorded, fun hopen => hopen.elim⟩
  | abortSelect => exact ⟨hids, .empty, fun hopen => hopen.elim⟩
  | abort hopen => exact ⟨hids, hinv.recorded.close, fun hopen => hopen.elim⟩

/-- It does not touch the rows other cycles have claimed. -/
theorem PublisherStep.others (h : PublisherStep i w s label w' s') (hinv : PublisherInv i w s)
    (hji : j ≠ i) (ht : PublisherInv j w t) : PublisherInv j w' t := by
  refine ⟨ht.recorded, fun hopen row hrow => ?_⟩
  obtain ⟨hmem, hlock⟩ := ht.claimed hopen row hrow
  cases h with
  | none hnone =>
      have hclaim : w.locks.claim i [] row.id = some j :=
        Locks.claim_of_locked (fun row hrow => absurd hrow List.not_mem_nil) hlock
      exact ⟨hmem, hclaim⟩
  | claim hbatch hne =>
      exact ⟨hmem, Locks.claim_of_locked (fun row hrow => (hbatch.mem hrow).2) hlock⟩
  | emit cycle row rows threw => exact ⟨hmem, hlock⟩
  | delete cycle => exact ⟨hmem, hlock⟩
  | commit cycle =>
      refine ⟨List.mem_filter.mpr ⟨hmem, decide_eq_true fun hid => ?_⟩,
        Locks.release_of_other hji hlock⟩
      obtain ⟨own, hown, heq, _⟩ := hinv.recorded.mem_rows hid
      have hlock' := (hinv.claimed trivial own hown).2
      rw [heq, hlock] at hlock'
      exact hji (Option.some.inj hlock')
  | abortSelect => exact ⟨hmem, hlock⟩
  | abort hopen' => exact ⟨hmem, Locks.release_of_other hji hlock⟩

/-- What holds of a call's local state; of the service's calls nothing is needed. -/
def CallInv (i : ℕ) (w : OutboxWorld) : OutboxCall → Prop
  | .service _ => True
  | .publisher s => PublisherInv i w s

abbrev OutboxInv (c : Config) : Prop := Program.Inv (fun w => EventIds w.db) CallInv c

theorem PublisherInv.of_events (ht : PublisherInv j w t)
    (hlocks : w'.locks = w.locks)
    (hkept : ∀ event ∈ w.db.outbox_events, event ∈ w'.db.outbox_events) :
    PublisherInv j w' t := by
  refine ⟨ht.recorded, fun hopen row hrow => ?_⟩
  obtain ⟨hmem, hlock⟩ := ht.claimed hopen row hrow
  exact ⟨hkept row hmem, hlocks ▸ hlock⟩

theorem step_inv {c c' : Config} {a : Action} (hinv : OutboxInv c) (hstart : Starts a)
    (hexec : (program deps).exec c a = some c') : OutboxInv c' := by
  refine hinv.step hexec (fun i p ha => ?_) (fun i e p w' q ha hi hstep => ?_)
    (fun x w' ha hevent => ?_)
  · subst ha
    cases p with
    | service call => trivial
    | publisher s =>
        obtain rfl : s = .select := hstart
        exact ⟨.empty, fun hopen => hopen.elim⟩
  · cases step_cases hstep with
    | service hservice =>
        obtain ⟨hids, hkept⟩ := service_events hservice hinv.shared
        refine ⟨hids, trivial, fun j r hji hj => ?_⟩
        have hr := hinv.threads j r hj
        cases r with
        | service call => trivial
        | publisher t => exact hr.of_events rfl hkept
    | publisher hpublisher =>
        have hs := hinv.threads i _ hi
        obtain ⟨hids, hown⟩ := hpublisher.own hinv.shared hs
        refine ⟨hids, hown, fun j r hji hj => ?_⟩
        have hr := hinv.threads j r hj
        cases r with
        | service call => trivial
        | publisher t => exact hpublisher.others hs hji hr
  · obtain ⟨world, hworld, rfl⟩ := Option.map_eq_some_iff.mp hevent
    have hsame := event_same hworld
    refine ⟨hinv.shared.of_same hsame, fun j r hj => ?_⟩
    have hr := hinv.threads j r hj
    cases r with
    | service call => trivial
    | publisher t => exact hr.of_events rfl fun event hevent => hsame.outbox_events ▸ hevent

theorem reach_inv {c : Config} (h : (system deps).Reach (fun _ => Starts) c) : OutboxInv c :=
  h.invariant (fun c ⟨⟨hnodup, hbelow, _⟩, hnone⟩ =>
      ⟨⟨hnodup, hbelow⟩, fun i p hi => absurd ((hnone i).symm.trans hi) (by simp)⟩)
    fun _ _ _ hc hstart hexec => step_inv hc hstart hexec

/-! ### Delivery -/

/-- The event is in the table, or the cycle whose commit deleted it has emitted
it and no listener threw. -/
def Delivered (c : Config) (event : OutboxEvent) : Prop :=
  event ∈ c.shared.db.outbox_events ∨
    ∃ i cycle, c.threads i = some (.publisher (.committed cycle)) ∧
      event.id ∈ cycle.successfulIds ∧ (event, false) ∈ cycle.emissions

/-- A cycle's step and a row of the outbox. -/
theorem PublisherStep.delivers (h : PublisherStep i w s label w' s') (hids : EventIds w.db)
    (hinv : PublisherInv i w s) {event : OutboxEvent} (hmem : event ∈ w.db.outbox_events)
    (htype : event.event_type = "shot.persisted") :
    event ∈ w'.db.outbox_events ∨ ∃ cycle, s' = .committed cycle ∧
      event.id ∈ cycle.successfulIds ∧ (event, false) ∈ cycle.emissions := by
  cases h with
  | commit cycle =>
      by_cases hid : event.id ∈ cycle.successfulIds
      · obtain ⟨row, hrow, heq, hemitted⟩ := hinv.recorded.mem_rows hid
        obtain rfl := hids.eq (hinv.claimed trivial row hrow).1 hmem heq
        exact .inr ⟨cycle, rfl, hid, hemitted htype⟩
      · exact .inl (List.mem_filter.mpr ⟨hmem, decide_eq_true hid⟩)
  | _ => exact .inl hmem

theorem step_delivered {c c' : Config} {a : Action} {event : OutboxEvent} (hinv : OutboxInv c)
    (htype : event.event_type = "shot.persisted") (h : Delivered c event)
    (hexec : (program deps).exec c a = some c') : Delivered c' event := by
  obtain ⟨i, p, rfl, hi, rfl⟩ | ⟨i, e, p, w', q, rfl, hi, hstep, rfl⟩ | ⟨x, w', rfl, hevent, rfl⟩ :=
    Program.exec_cases hexec
  · refine h.imp (fun h => h) fun ⟨j, cycle, hj, hrest⟩ => ⟨j, cycle, ?_, hrest⟩
    have hji : j ≠ i := by
      rintro rfl
      exact absurd (hi.symm.trans hj) (by simp)
    exact (Function.update_of_ne hji ..).trans hj
  · obtain hmem | ⟨j, cycle, hj, hrest⟩ := h
    · cases step_cases hstep with
      | service hservice => exact .inl ((service_events hservice hinv.shared).2 event hmem)
      | publisher hpublisher =>
          obtain hmem | ⟨cycle, rfl, hid, hemitted⟩ := hpublisher.delivers hinv.shared
            (hinv.threads i _ hi) hmem htype
          · exact .inl hmem
          · exact .inr ⟨i, cycle, Function.update_self .., hid, hemitted⟩
    · refine .inr ⟨j, cycle, ?_, hrest⟩
      -- A cycle that has committed takes no further step.
      have hji : j ≠ i := by
        rintro rfl
        obtain rfl := Option.some.inj (hi.symm.trans hj)
        cases step_cases hstep with
        | publisher hpublisher =>
            cases hpublisher with
            | abort hopen => exact hopen.elim
      exact (Function.update_of_ne hji ..).trans hj
  · obtain ⟨world, hworld, rfl⟩ := Option.map_eq_some_iff.mp hevent
    have hevents := (event_same hworld).outbox_events
    exact h.imp (fun h => hevents ▸ h) fun h => h

/-- The outbox delivers at least once. From every state the service reaches, in
whatever order the calls and the cycles of all workers go on, fail or crash:
an event that is in the table then still is later, or the cycle that deleted it
has emitted it without a listener throwing; no cycle is to delete, or has
deleted, a row whose emit threw; and no row is claimed by two open cycles. -/
theorem outbox_at_least_once {c c' : Config} {as : List Action}
    (hreach : (system deps).Reach (fun _ => Starts) c)
    (hrun : (system deps).Run (fun _ => Starts) c as c') :
    (∀ event ∈ c.shared.db.outbox_events, event.event_type = "shot.persisted" →
      Delivered c' event) ∧
      (∀ i s, c'.threads i = some (.publisher s) → ∀ row, (row, true) ∈ s.cycle.emissions →
        row.id ∉ s.cycle.successfulIds) ∧
      ∀ i j s t, c'.threads i = some (.publisher s) → c'.threads j = some (.publisher t) →
        s.IsOpen → t.IsOpen → i ≠ j → ∀ row ∈ s.cycle.rows, ∀ row' ∈ t.cycle.rows,
          row.id ≠ row'.id := by
  have hinv := reach_inv (hreach.run hrun)
  refine ⟨fun event hevent htype => ?_, fun i s hi => (hinv.threads i _ hi).recorded.threw,
    fun i j s t hi hj hs ht hij row hrow row' hrow' heq => ?_⟩
  · have hkept := hrun.invariant (fun c a c' ⟨hc, hd⟩ hstart hexec =>
      ⟨step_inv hc hstart hexec, step_delivered hc htype hd hexec⟩ :
        ∀ c a c', OutboxInv c ∧ Delivered c event → Starts a → (system deps).exec c a = some c' →
          OutboxInv c' ∧ Delivered c' event)
      ⟨reach_inv hreach, .inl hevent⟩
    exact hkept.2
  · have hlock := ((hinv.threads i _ hi).claimed hs row hrow).2
    have hlock' := ((hinv.threads j _ hj).claimed ht row' hrow').2
    rw [heq, hlock'] at hlock
    exact hij (Option.some.inj hlock).symm

end

/-! ### Two workers and two events -/

def driveEvent : OutboxEvent where
  id := 1
  event_type := "shot.persisted"
  payload := (driveShot driveSha256 firstId firstDrive 1710498606000).toShotWithoutPayload
  created_at := 1710498606000

def laterEvent : OutboxEvent where
  id := 2
  event_type := "shot.persisted"
  payload := (driveShot driveSha256 secondId secondDrive 1710498607000).toShotWithoutPayload
  created_at := 1710498607000

def publisherDeps : Deps := ⟨driveSha256, fun _ => none⟩

/-- Two events wait, and no cycle is running. -/
def twoEvents : Config where
  shared :=
    { Service.freshWorld with
      db := { Service.freshWorld.db with
        outbox_events := [driveEvent, laterEvent]
        nextEventId := 3 }
      locks := fun _ => none }
  threads := fun _ => none

/-- One worker claims both events, and a listener throws at the second one;
another worker finds nothing until the first has committed, and then claims
what is left. -/
def twoWorkersActions : List Action :=
  [.spawn 0 (.publisher .select), .spawn 1 (.publisher .select),
    .step 0 (.publisher (.rows [driveEvent, laterEvent])), .step 1 (.publisher (.rows [])),
    .step 0 (.publisher (.emitted false)), .step 0 (.publisher (.emitted true)),
    .step 1 (.publisher .ok), .step 0 (.publisher .ok), .step 0 (.publisher .ok),
    .spawn 2 (.publisher .select), .step 2 (.publisher (.rows [laterEvent])),
    .step 2 (.publisher (.emitted false))]

def afterTwoWorkers : Config :=
  ((system publisherDeps).execAll twoEvents twoWorkersActions).getD twoEvents

/-- The first event is deleted once it is emitted; the second stays until its
emit does not throw, and no cycle that saw it throw deletes it. -/
theorem outbox_at_least_once_twoWorkers :
    afterTwoWorkers.shared.db.outbox_events = [laterEvent] ∧
      (∀ event ∈ [driveEvent, laterEvent], Delivered afterTwoWorkers event) ∧
      (∀ i s, afterTwoWorkers.threads i = some (.publisher s) →
        ∀ row, (row, true) ∈ s.cycle.emissions → row.id ∉ s.cycle.successfulIds) ∧
      ∀ i j s t, afterTwoWorkers.threads i = some (.publisher s) →
        afterTwoWorkers.threads j = some (.publisher t) → s.IsOpen → t.IsOpen → i ≠ j →
          ∀ row ∈ s.cycle.rows, ∀ row' ∈ t.cycle.rows, row.id ≠ row'.id := by
  have hinit : (system publisherDeps).init twoEvents := by
    refine ⟨⟨?_, ?_, fun _ => rfl⟩, fun _ => rfl⟩
    · simp [twoEvents, driveEvent, laterEvent]
    · simp [twoEvents, driveEvent, laterEvent]
  have hstarts : ∀ a ∈ twoWorkersActions, Starts a := by
    simp [twoWorkersActions, Starts]
  obtain ⟨hsome, hleft⟩ :
      ((system publisherDeps).execAll twoEvents twoWorkersActions).isSome = true ∧
        afterTwoWorkers.shared.db.outbox_events = [laterEvent] := by
    decide +kernel
  have hrun : (system publisherDeps).Run (fun _ => Starts) twoEvents twoWorkersActions
      afterTwoWorkers := System.run_of_isSome (fun a ha _ => hstarts a ha) hsome
  obtain ⟨hdelivered, hthrew, hclaims⟩ := outbox_at_least_once (.init hinit) hrun
  refine ⟨hleft, fun event hevent => hdelivered event hevent ?_, hthrew, hclaims⟩
  simp only [List.mem_cons, List.not_mem_nil, or_false] at hevent
  obtain rfl | rfl := hevent <;> rfl

end Outbox

end PureplayIngest
