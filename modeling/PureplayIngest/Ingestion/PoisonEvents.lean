import PureplayIngest.Ingestion.OutboxPublisher
import PureplayIngest.Lib.BoundedBatches

/-!
Events whose emit throws each time.

Their rows stay in the table and are claimed again by the next cycle. A cycle
goes on after an emit that has thrown, so within a batch such a row is in
nobody's way. But a batch is the oldest 100 rows, and enough of them fill it.

Here one worker runs one cycle after the other, each to its commit, and
nothing is inserted.
-/

namespace PureplayIngest

open Shared.Domain Shared.Kysely Identity Ingestion Lib Webhooks

namespace Outbox

/-- A row whose emit throws. Only those of this type are emitted. -/
def Poisonous (throws : OutboxEvent → Bool) (row : OutboxEvent) : Bool :=
  row.event_type = "shot.persisted" ∧ throws row

/-- The steps of one cycle. -/
def worker : System (OutboxWorld × PublisherState) PublisherLabel where
  init c := c.2 = .select
  exec c label := c.2.step 0 c.1 label

/-- An emit throws or not by the row that is emitted, and no transaction is aborted. -/
def Poisoned (throws : OutboxEvent → Bool) (c : OutboxWorld × PublisherState) :
    PublisherLabel → Prop
  | .emitted threw => ∀ row ∈ c.2.remaining.head?, threw = throws row
  | .abort => False
  | _ => True

/-- `publishPending` from its SELECT to its commit. -/
def Poll (throws : OutboxEvent → Bool) (w : OutboxWorld) (cycle : Cycle) (w' : OutboxWorld) :
    Prop :=
  ∃ labels, worker.Run (Poisoned throws) (w, .select) labels (w', .committed cycle)

/-- `publishPending`, once for each of the cycles. -/
inductive Polls (throws : OutboxEvent → Bool) : OutboxWorld → List Cycle → OutboxWorld → Prop
  | nil (w : OutboxWorld) : Polls throws w [] w
  | cons {w w₁ w' : OutboxWorld} {cycle : Cycle} {cycles : List Cycle}
      (hpoll : Poll throws w cycle w₁) (tail : Polls throws w₁ cycles w') :
      Polls throws w (cycle :: cycles) w'

/-- The loop over the rows of a batch. -/
def Cycle.publishAll (throws : OutboxEvent → Bool) (cycle : Cycle) : List OutboxEvent → Cycle
  | [] => cycle
  | row :: rows => (cycle.publish row (throws row)).publishAll throws rows

/-- Every event outside of the poisonous ones has been emitted and is gone, and these are left. -/
structure Drained (throws : OutboxEvent → Bool) (events : List OutboxEvent) (cycles : List Cycle)
    (left : List OutboxEvent) : Prop where
  emitted : ∀ event ∈ events, event.event_type = "shot.persisted" → Poisonous throws event = false →
    ∃ cycle ∈ cycles, (event, false) ∈ cycle.emissions ∧ event.id ∈ cycle.successfulIds
  left : left = events.filter (Poisonous throws)

/-! ### One cycle -/

section Poll

variable {throws : OutboxEvent → Bool} {w w' : OutboxWorld} {cycle cycle' : Cycle}
  {rows : List OutboxEvent} {row : OutboxEvent} {s : PublisherState} {labels : List PublisherLabel}

theorem poisonous_eq_false :
    Poisonous throws row = false ↔ (row.event_type = "shot.persisted" → throws row = false) := by
  rw [Poisonous, decide_eq_false_iff_not, not_and, Bool.not_eq_true]

theorem Cycle.publishAll_rows :
    (cycle.publishAll throws rows).rows = cycle.rows := by
  induction rows generalizing cycle with
  | nil => rfl
  | cons row rows ih => rw [Cycle.publishAll, ih, Cycle.publish_rows]

theorem Cycle.publishAll_successfulIds :
    (cycle.publishAll throws rows).successfulIds =
      cycle.successfulIds ++ (rows.filter fun row => !Poisonous throws row).map (·.id) := by
  induction rows generalizing cycle with
  | nil => exact (List.append_nil _).symm
  | cons row rows ih =>
      rw [Cycle.publishAll, ih, Cycle.publish]
      by_cases htype : row.event_type = "shot.persisted"
      · cases hthrows : throws row with
        | true => simp [htype, Poisonous, hthrows]
        | false => simp [htype, Poisonous, hthrows]
      · simp [htype, Poisonous]

/-- An event that is in the batch and not poisonous is emitted. -/
theorem Cycle.mem_publishAll_emissions (hrow : row ∈ rows)
    (htype : row.event_type = "shot.persisted") (hgood : Poisonous throws row = false) :
    (row, false) ∈ (cycle.publishAll throws rows).emissions := by
  have hkept (rows : List OutboxEvent) (cycle : Cycle) (p : OutboxEvent × Bool)
      (hp : p ∈ cycle.emissions) : p ∈ (cycle.publishAll throws rows).emissions := by
    induction rows generalizing cycle with
    | nil => exact hp
    | cons row rows ih =>
        refine ih _ ?_
        rw [Cycle.publish]
        split
        · exact List.mem_append_left _ hp
        · exact hp
  induction rows generalizing cycle with
  | nil => exact absurd hrow List.not_mem_nil
  | cons other rows ih =>
      rw [Cycle.publishAll]
      rcases List.mem_cons.mp hrow with rfl | hrow
      · apply hkept
        rw [Cycle.publish, if_pos htype, poisonous_eq_false.mp hgood htype]
        exact List.mem_append_right _ (List.mem_singleton_self _)
      · exact ih hrow

theorem run_committed
    (h : worker.Run (Poisoned throws) (w, .committed cycle) labels (w', s)) :
    w' = w ∧ s = .committed cycle := by
  cases h with
  | nil => exact ⟨rfl, rfl⟩
  | @cons _ c _ label _ hguard hexec tail =>
      obtain ⟨w₁, s₁⟩ := c
      have hstep : (PublisherState.committed cycle).step 0 w label = some (w₁, s₁) := hexec
      cases PublisherState.step_cases hstep with
      | abort hopen => exact hopen.elim

theorem run_commit
    (h : worker.Run (Poisoned throws) (w, .commit cycle) labels (w', .committed cycle')) :
    cycle' = cycle ∧ w' = { w with
      db := deleteEvents w.db cycle.successfulIds
      locks := w.locks.release 0 } := by
  cases h with
  | @cons _ c _ label _ hguard hexec tail =>
      obtain ⟨w₁, s₁⟩ := c
      cases PublisherState.step_cases hexec with
      | commit =>
          obtain ⟨rfl, heq⟩ := run_committed tail
          exact ⟨PublisherState.committed.inj heq, rfl⟩
      | abort hopen => exact hguard.elim

/-- From some row of the batch to the commit. -/
theorem run_afterEmit
    (h : worker.Run (Poisoned throws) (w, afterEmit cycle rows) labels (w', .committed cycle')) :
    cycle' = cycle.publishAll throws rows ∧ w' = { w with
      db := deleteEvents w.db cycle'.successfulIds
      locks := w.locks.release 0 } := by
  induction rows generalizing cycle labels with
  | nil =>
      rw [afterEmit] at h
      split at h
      · obtain ⟨rfl, hw⟩ := run_commit h
        exact ⟨rfl, hw⟩
      · cases h with
        | @cons _ c _ label _ hguard hexec tail =>
            obtain ⟨w₁, s₁⟩ := c
            cases PublisherState.step_cases hexec with
            | delete =>
                obtain ⟨rfl, hw⟩ := run_commit tail
                exact ⟨rfl, hw⟩
            | abort hopen => exact hguard.elim
  | cons row rows ih =>
      rw [afterEmit] at h
      cases h with
      | @cons _ c _ label _ hguard hexec tail =>
          obtain ⟨w₁, s₁⟩ := c
          cases PublisherState.step_cases hexec with
          | emit _ _ _ threw =>
              obtain rfl : threw = throws row := hguard row rfl
              exact ih tail
          | abort hopen => exact hguard.elim

variable (throws) in
theorem exists_run_afterEmit (w : OutboxWorld) (cycle : Cycle) (rows : List OutboxEvent) :
    ∃ labels, worker.Run (Poisoned throws) (w, afterEmit cycle rows) labels
      ({ w with
        db := deleteEvents w.db (cycle.publishAll throws rows).successfulIds
        locks := w.locks.release 0 }, .committed (cycle.publishAll throws rows)) := by
  induction rows generalizing cycle with
  | nil =>
      rw [afterEmit]
      split
      · exact ⟨[.ok], .cons trivial rfl (.nil _)⟩
      · exact ⟨[.ok, .ok], .cons trivial rfl (.cons trivial rfl (.nil _))⟩
  | cons row rows ih =>
      obtain ⟨labels, hrun⟩ := ih (cycle.publish row (throws row))
      refine ⟨.emitted (throws row) :: labels, .cons ?_ rfl hrun⟩
      rintro _ ⟨⟩
      rfl

/-- A cycle deals with a batch of the oldest rows, and deletes those that are not poisonous. -/
theorem poll_iff :
    Poll throws w cycle w' ↔ ∃ batch, OldestUnlocked w.unlocked batch ∧
      cycle = Cycle.publishAll throws { Cycle.empty with rows := batch } batch ∧
      w' = { w with
        db := deleteEvents w.db cycle.successfulIds
        locks := (w.locks.claim 0 batch).release 0 } := by
  constructor
  · rintro ⟨labels, hrun⟩
    cases hrun with
    | @cons _ c _ label _ hguard hexec tail =>
        obtain ⟨w₁, s₁⟩ := c
        cases PublisherState.step_cases hexec with
        | none hnone =>
            obtain ⟨rfl, rfl⟩ := run_commit tail
            exact ⟨[], hnone, rfl, rfl⟩
        | @claim batch hbatch hne =>
            obtain ⟨row, rows, rfl⟩ := List.exists_cons_of_ne_nil hne
            have hrun : worker.Run (Poisoned throws) (_, afterEmit { Cycle.empty with
              rows := row :: rows } (row :: rows)) _ (w', .committed cycle) := tail
            -- From the claim on the rest of the cycle is determined.
            obtain ⟨rfl, rfl⟩ := run_afterEmit hrun
            exact ⟨_, hbatch, rfl, rfl⟩
        | abortSelect => exact hguard.elim
        | abort hopen => exact hopen.elim
  · rintro ⟨batch, hbatch, rfl, rfl⟩
    obtain ⟨labels, hrun⟩ := exists_run_afterEmit throws
      { w with locks := w.locks.claim 0 batch } { Cycle.empty with rows := batch } batch
    refine ⟨.rows batch :: labels, .cons trivial ((if_pos hbatch).trans ?_) hrun⟩
    cases batch with
    | nil => rfl
    | cons row rows => rfl

end Poll

/-! ### Cycle after cycle -/

section Polls

variable {throws : OutboxEvent → Bool} {w w' : OutboxWorld} {cycle : Cycle} {cycles : List Cycle}
  {events batch : List OutboxEvent} {event : OutboxEvent}

theorem eq_of_id (hids : (events.map (·.id)).Nodup) {a b : OutboxEvent} (ha : a ∈ events)
    (hb : b ∈ events) (heq : a.id = b.id) : a = b :=
  List.inj_on_of_nodup_map hids ha hb heq

theorem oldestUnlocked_iff (hids : (events.map (·.id)).Nodup) :
    OldestUnlocked events batch ↔
      BoundedBatches.IsBatch (·.created_at) batchSize events batch := by
  constructor
  · rintro ⟨hmem, hnodup, hsorted, hlength, holdest⟩
    exact ⟨hmem, hnodup.of_map _, hsorted, hlength, holdest⟩
  · rintro ⟨hmem, hnodup, hsorted, hlength, holdest⟩
    refine ⟨hmem, hnodup.map_on fun a ha b hb heq => ?_, hsorted, hlength, holdest⟩
    exact eq_of_id hids (hmem a ha) (hmem b hb) heq

/-- The rows a cycle leaves. -/
theorem deleteEvents_publishAll (hids : (w.db.outbox_events.map (·.id)).Nodup)
    (hmem : ∀ row ∈ batch, row ∈ w.db.outbox_events) :
    (deleteEvents w.db (Cycle.publishAll throws { Cycle.empty with rows := batch }
      batch).successfulIds).outbox_events =
      BoundedBatches.kept (Poisonous throws) w.db.outbox_events batch := by
  rw [Cycle.publishAll_successfulIds]
  refine List.filter_congr fun event hevent => decide_eq_decide.mpr ?_
  constructor
  · intro hnot
    by_contra hdeleted
    rw [not_or, not_not, Bool.not_eq_true] at hdeleted
    obtain ⟨hgood, hbatch⟩ := hdeleted
    refine hnot (List.mem_append_right _ (List.mem_map_of_mem (List.mem_filter.mpr ⟨hbatch, ?_⟩)))
    rw [hgood]
    rfl
  · rintro hkept hid
    obtain ⟨row, hrow, heq⟩ := List.mem_map.mp ((List.mem_append.mp hid).resolve_left
      List.not_mem_nil)
    obtain ⟨hrow, hgood⟩ := List.mem_filter.mp hrow
    obtain rfl := eq_of_id hids (hmem row hrow) hevent heq
    rcases hkept with hpoison | hnot
    · rw [hpoison] at hgood
      exact absurd hgood (by simp)
    · exact hnot hrow

theorem Locks.release_claim {locks : Locks} {i id : ℕ} {rows : List OutboxEvent}
    (h : locks id = none) : (locks.claim i rows).release i id = none := by
  rw [Locks.release]
  split
  · rfl
  · rename_i hother
    rw [Locks.claim] at hother ⊢
    split
    · rename_i hid
      exact absurd (if_pos hid) hother
    · exact h

/-- No two events have one id, and no row is locked. -/
structure Idle (w : OutboxWorld) : Prop where
  ids : (w.db.outbox_events.map (·.id)).Nodup
  unlocked : ∀ id, w.locks id = none

theorem Idle.unlocked_eq (h : Idle w) : w.unlocked = w.db.outbox_events :=
  List.filter_eq_self.mpr fun event _ => decide_eq_true (h.unlocked event.id)

theorem Idle.poll (h : Idle w) (hpoll : Poll throws w cycle w') :
    Idle w' ∧ BoundedBatches.IsBatch (·.created_at) batchSize w.db.outbox_events cycle.rows ∧
      cycle = Cycle.publishAll throws { Cycle.empty with rows := cycle.rows } cycle.rows ∧
      w'.db.outbox_events =
        BoundedBatches.kept (Poisonous throws) w.db.outbox_events cycle.rows := by
  obtain ⟨batch, hbatch, rfl, rfl⟩ := poll_iff.mp hpoll
  rw [h.unlocked_eq] at hbatch
  rw [Cycle.publishAll_rows]
  refine ⟨⟨?_, fun id => ?_⟩, (oldestUnlocked_iff h.ids).mp hbatch, rfl,
    deleteEvents_publishAll h.ids hbatch.1⟩
  · exact h.ids.sublist (List.filter_sublist.map _)
  · exact Locks.release_claim (h.unlocked id)

theorem Idle.exists_poll (h : Idle w)
    (hbatch : BoundedBatches.IsBatch (·.created_at) batchSize w.db.outbox_events batch) :
    ∃ cycle w', Poll throws w cycle w' ∧ cycle.rows = batch := by
  refine ⟨_, _, poll_iff.mpr ⟨batch, ?_, rfl, rfl⟩, Cycle.publishAll_rows⟩
  rw [h.unlocked_eq]
  exact (oldestUnlocked_iff h.ids).mpr hbatch

/-- The rows of the cycles are successive batches. -/
theorem Polls.rounds (h : Polls throws w cycles w') (hidle : Idle w) :
    BoundedBatches.Rounds (·.created_at) (Poisonous throws) batchSize w.db.outbox_events
      (cycles.map (·.rows)) w'.db.outbox_events := by
  induction h with
  | nil w => exact .nil _
  | cons hpoll tail ih =>
      obtain ⟨hidle', hbatch, _, hkept⟩ := hidle.poll hpoll
      refine .cons hbatch ?_
      rw [← hkept]
      exact ih hidle'

theorem Idle.exists_polls (h : Idle w) {batches : List (List OutboxEvent)}
    {left : List OutboxEvent}
    (hrounds : BoundedBatches.Rounds (·.created_at) (Poisonous throws) batchSize
      w.db.outbox_events batches left) :
    ∃ cycles w', Polls throws w cycles w' ∧ cycles.length = batches.length ∧
      w'.db.outbox_events = left := by
  induction batches generalizing w with
  | nil =>
      cases hrounds with
      | nil => exact ⟨[], w, .nil w, rfl, rfl⟩
  | cons batch batches ih =>
      cases hrounds with
      | cons hbatch tail =>
          obtain ⟨cycle, w₁, hpoll, rfl⟩ :
              ∃ cycle w₁, Poll throws w cycle w₁ ∧ cycle.rows = batch := h.exists_poll hbatch
          obtain ⟨hidle, _, _, hkept⟩ := h.poll hpoll
          rw [← hkept] at tail
          obtain ⟨cycles, w', hpolls, hlength, hleft⟩ := ih hidle tail
          exact ⟨cycle :: cycles, w', .cons hpoll hpolls, by simp [hlength], hleft⟩

/-- A row with a batch of poisonous ones before it may be there after any number of cycles. -/
theorem Idle.exists_starved (h : Idle w) (hevent : event ∈ w.db.outbox_events)
    (hgood : Poisonous throws event = false)
    (hblocked : batchSize ≤ (w.db.outbox_events.filter fun other =>
      Poisonous throws other ∧ other.created_at ≤ event.created_at).length) (n : ℕ) :
    ∃ cycles w', Polls throws w cycles w' ∧ cycles.length = n ∧ event ∈ w'.db.outbox_events := by
  obtain ⟨batches, left, hrounds, hn, hleft⟩ :=
    BoundedBatches.Rounds.exists_starved (h.ids.of_map _) hevent hgood hblocked n
  obtain ⟨cycles, w', hpolls, hlength, rfl⟩ := h.exists_polls hrounds
  exact ⟨cycles, w', hpolls, hlength.trans hn, hleft⟩

/-- A batch's events are emitted, but for the poisonous ones. -/
theorem Polls.emitted (h : Polls throws w cycles w') (hidle : Idle w) (hcycle : cycle ∈ cycles)
    (hrow : event ∈ cycle.rows) (htype : event.event_type = "shot.persisted")
    (hgood : Poisonous throws event = false) :
    (event, false) ∈ cycle.emissions ∧ event.id ∈ cycle.successfulIds := by
  induction h with
  | nil w => exact absurd hcycle List.not_mem_nil
  | cons hpoll tail ih =>
      obtain ⟨hidle', _, heq, _⟩ := hidle.poll hpoll
      rcases List.mem_cons.mp hcycle with rfl | hcycle
      · rw [heq, Cycle.publishAll_successfulIds]
        refine ⟨Cycle.mem_publishAll_emissions hrow htype hgood, List.mem_append_right _ ?_⟩
        exact List.mem_map_of_mem (List.mem_filter.mpr ⟨hrow, by rw [hgood]; rfl⟩)
      · exact ih hidle' hcycle

end Polls

/-- As many cycles as there are rows emit and delete every event but the
poisonous ones, and leave these, exactly when no other row has as many
poisonous rows that are as old as a batch holds. -/
theorem publishPending_drains_iff (throws : OutboxEvent → Bool) {w : OutboxWorld} (hidle : Idle w) :
    (∃ cycles w', Polls throws w cycles w' ∧ cycles.length = w.db.outbox_events.length) ∧
      ((∀ cycles w', Polls throws w cycles w' → cycles.length = w.db.outbox_events.length →
          Drained throws w.db.outbox_events cycles w'.db.outbox_events) ↔
        ∀ event ∈ w.db.outbox_events, Poisonous throws event = false →
          (w.db.outbox_events.filter fun other =>
            Poisonous throws other ∧ other.created_at ≤ event.created_at).length < batchSize) := by
  have hnodup : w.db.outbox_events.Nodup := hidle.ids.of_map _
  refine ⟨?_, fun hdrained event hevent hgood => ?_, fun hunblocked cycles w' hpolls hlength => ?_⟩
  · obtain ⟨batches, left, hrounds, hn⟩ := BoundedBatches.Rounds.exists (·.created_at)
      (Poisonous throws) batchSize hnodup w.db.outbox_events.length
    obtain ⟨cycles, w', hpolls, hlength, _⟩ := hidle.exists_polls hrounds
    exact ⟨cycles, w', hpolls, hlength.trans hn⟩
  · -- Otherwise the event is passed over each time.
    by_contra hblocked
    obtain ⟨cycles, w', hpolls, hlength, hleft⟩ := hidle.exists_starved hevent hgood
      (not_lt.mp hblocked) w.db.outbox_events.length
    rw [(hdrained cycles w' hpolls hlength).left, List.mem_filter, hgood] at hleft
    exact absurd hleft.2 (by simp)
  · have hrounds := hpolls.rounds hidle
    have hleft : w'.db.outbox_events = w.db.outbox_events.filter (Poisonous throws) :=
      hrounds.drained hunblocked (by rw [List.length_map, hlength])
    refine ⟨fun event hevent htype hgood => ?_, hleft⟩
    have hgone : event ∉ w'.db.outbox_events := by
      rw [hleft, List.mem_filter, hgood]
      simp
    obtain ⟨batch, hbatch, hmem⟩ := hrounds.mem_batch hevent hgone
    obtain ⟨cycle, hcycle, rfl⟩ := List.mem_map.mp hbatch
    exact ⟨cycle, hcycle, hpolls.emitted hidle hcycle hmem htype hgood⟩

/-! ### A table with a hundred poisonous events -/

/-- An event, and as many older ones. -/
def agedEvents (n : ℕ) : List OutboxEvent :=
  (List.range (n + 1)).map fun k => { driveEvent with id := k, created_at := k }

def agedWorld (n : ℕ) : OutboxWorld :=
  { Service.freshWorld with
    db := { Service.freshWorld.db with outbox_events := agedEvents n, nextEventId := n + 1 }
    locks := fun _ => none }

theorem agedWorld_idle (n : ℕ) : Idle (agedWorld n) where
  ids := by
    have hids : (agedEvents n).map (·.id) = List.range (n + 1) := by
      rw [agedEvents, List.map_map]
      exact List.map_id _
    exact hids ▸ List.nodup_range
  unlocked _ := rfl

/-- Of three events one is poisonous, and three cycles leave it alone in the table. -/
theorem publishPending_drains_iff_one :
    ∃ cycles w', Polls (fun row => row.id = 1) (agedWorld 2) cycles w' ∧
      w'.db.outbox_events.map (·.id) = [1] := by
  obtain ⟨⟨cycles, w', hpolls, hlength⟩, hiff⟩ :=
    publishPending_drains_iff (fun row => row.id = 1) (agedWorld_idle 2)
  have hdrained := hiff.mpr (fun event _ _ => (List.length_filter_le _ _).trans_lt (by decide))
    cycles w' hpolls hlength
  refine ⟨cycles, w', hpolls, ?_⟩
  rw [hdrained.left]
  decide +kernel

theorem ahead_last (n : ℕ) :
    ((agedEvents n).filter fun other =>
      Poisonous (fun row => row.id < n) other ∧ other.created_at ≤ n).length = n := by
  rw [agedEvents, List.filter_map, List.length_map, List.range_succ, List.filter_append,
    List.length_append]
  have holder : (List.range n).filter ((fun other : OutboxEvent =>
      decide (Poisonous (fun row => row.id < n) other ∧ other.created_at ≤ n)) ∘
        fun k => { driveEvent with id := k, created_at := k }) = List.range n := by
    refine List.filter_eq_self.mpr fun k hk => ?_
    have hlt : k < n := List.mem_range.mp hk
    simp [Poisonous, driveEvent, hlt, hlt.le]
  rw [holder, List.length_range]
  simp [Poisonous]

/-- Behind a hundred poisonous events the newest one is left after a cycle for each row. -/
theorem newest_blocked :
    ¬ ∀ cycles w', Polls (fun row => row.id < batchSize) (agedWorld batchSize) cycles w' →
      cycles.length = (agedWorld batchSize).db.outbox_events.length →
        Drained (fun row => row.id < batchSize) (agedWorld batchSize).db.outbox_events cycles
          w'.db.outbox_events := by
  intro hdrained
  have hlast : (⟨batchSize, "shot.persisted", driveEvent.payload, batchSize⟩ : OutboxEvent) ∈
      (agedWorld batchSize).db.outbox_events :=
    List.mem_map.mpr ⟨batchSize, List.mem_range.mpr (Nat.lt_succ_self _), rfl⟩
  have hgood : Poisonous (fun row => row.id < batchSize)
      ⟨batchSize, "shot.persisted", driveEvent.payload, batchSize⟩ = false := by
    simp [Poisonous]
  obtain ⟨cycles, w', hpolls, hlength, hleft⟩ := (agedWorld_idle batchSize).exists_starved hlast
    hgood (ahead_last batchSize).ge _
  rw [(hdrained cycles w' hpolls hlength).left, List.mem_filter, hgood] at hleft
  exact absurd hleft.2 (by simp)

end Outbox

end PureplayIngest
