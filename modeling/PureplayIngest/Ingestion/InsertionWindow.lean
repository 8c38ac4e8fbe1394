import PureplayIngest.Ingestion.DuplicateLinks
import PureplayIngest.Ingestion.OutboxPublisher

/-!
The window between the insertion of a shot and the end of the attempt that
inserted it, in which the attempt may flag the shot.

An attempt gets its window with the row it inserts, so no two attempts have a
window on one shot, and the row is there as long as the window is open.
-/

namespace PureplayIngest.Outbox

open Shared.Domain Shared.Kysely Identity Ingestion Lib Webhooks

/-! ### What a call does to rows and windows -/

section

variable {w w' : World} {call call' : Call} {x origin : String}

theorem window_of_chosen (h : call.chosen = some (x, origin)) :
    ∃ id, call.window = some (x, id) := by
  cases call with
  | process s =>
      cases s with
      | flag job shot id o =>
          obtain ⟨rfl, rfl⟩ := Prod.mk.inj (Option.some.inj h)
          exact ⟨id, rfl⟩
      | _ => exact absurd h (by simp [Call.chosen])
  | _ => exact absurd h (by simp [Call.chosen])

/-- The rows of a stored shot are flagged as they were, unless the step flags this shot. -/
theorem rows_step (h : TablesEffect w w' call call')
    (hx : ∃ row ∈ w.db.shots, row.canonical_shot_id = x)
    (hflag : ∀ origin, call.chosen ≠ some (x, origin))
    {row : NormalisedShot} (hrow : row ∈ w'.db.shots) (heq : row.canonical_shot_id = x) :
    ∃ old ∈ w.db.shots, old.canonical_shot_id = x ∧ row.duplicate_of = old.duplicate_of := by
  cases h with
  | frame hsame => exact ⟨row, hsame.shots ▸ hrow, heq, rfl⟩
  | insert job haccepted hkey hid hdb =>
      rw [hdb] at hrow
      obtain hrow | hrow := List.mem_append.mp hrow
      · exact ⟨row, hrow, heq, rfl⟩
      · obtain rfl := List.mem_singleton.mp hrow
        obtain ⟨before, hbefore, hx⟩ := hx
        exact absurd (hx.trans heq.symm) (hid before hbefore)
  | flag job shot id origin hdb =>
      -- The row that is flagged is another one.
      have hne : x ≠ shot.canonical_shot_id := by
        rintro rfl
        exact hflag origin rfl
      rw [hdb] at hrow
      obtain ⟨old, hold, rfl⟩ := List.mem_map.mp hrow
      split at heq
      · rename_i hid
        exact absurd (heq.symm.trans hid) hne
      · rename_i hid
        rw [if_neg hid]
        exact ⟨old, hold, heq, rfl⟩
  | backfill pair user identity hdb =>
      rw [hdb] at hrow
      obtain ⟨old, hold, rfl⟩ := List.mem_map.mp hrow
      refine ⟨old, hold, ?_⟩
      -- A backfill changes the user of a row only.
      split at heq
      · rename_i hmatch
        rw [if_pos hmatch]
        exact ⟨heq, rfl⟩
      · rename_i hmatch
        rw [if_neg hmatch]
        exact ⟨heq, rfl⟩

end

/-! ### Windows of their own -/

/-- Attempts that may still flag have a shot of their own, and it is stored. -/
structure WindowInv (c : Config) : Prop where
  window : ∀ i call x y, c.threads i = some (.service call) → call.window = some (x, y) →
    x = y ∧ ∃ row ∈ c.shared.db.shots, row.canonical_shot_id = x
  distinct : ∀ i j call other x y z, c.threads i = some (.service call) →
    c.threads j = some (.service other) → call.window = some (x, y) →
    other.window = some (x, z) → i = j

section

variable {c : Config} {i : ℕ} {call call' : Call} {world : World}

/-- The configuration after a step of a call. -/
def afterCall (c : Config) (i : ℕ) (world : World) (call' : Call) : Config :=
  ⟨{ c.shared with toWorld := world }, Function.update c.threads i (some (.service call'))⟩

theorem afterCall_cases {j : ℕ} {other : Call}
    (h : (afterCall c i world call').threads j = some (.service other)) :
    j = i ∧ call' = other ∨ j ≠ i ∧ c.threads j = some (.service other) := by
  obtain ⟨hji, heq⟩ | hother := Program.update_cases h
  · exact .inl ⟨hji, OutboxCall.service.inj heq⟩
  · exact .inr hother

/-- The shot a call has a window on is the one before, or one it has just inserted. -/
theorem window_step (h : TablesEffect c.shared.toWorld world call call') {x y : String}
    (hwindow : call'.window = some (x, y)) :
    call.window = some (x, y) ∨
      x = y ∧ (∃ row ∈ world.db.shots, row.canonical_shot_id = x) ∧
        ∀ row ∈ c.shared.db.shots, row.canonical_shot_id ≠ x := by
  cases h with
  | frame hsame hkept => exact .inl (hkept _ hwindow)
  | insert job haccepted hkey hid hdb =>
      obtain ⟨rfl, rfl⟩ := Prod.mk.inj (Option.some.inj hwindow)
      refine .inr ⟨rfl, ⟨_, ?_, rfl⟩, hid⟩
      rw [hdb]
      exact List.mem_append_right _ (List.mem_singleton_self _)
  | flag job shot id origin hdb => exact absurd hwindow (by simp [Call.window])
  | backfill pair user row hdb => exact absurd hwindow (by simp [Call.window])

/-- An attempt with a window on a shot is the only one that flags it. -/
theorem not_chosen (hinv : WindowInv c) (hi : c.threads i = some (.service call)) {j : ℕ}
    {other : Call} (hj : c.threads j = some (.service other)) (hji : j ≠ i) {x y origin : String}
    (hwindow : other.window = some (x, y)) : call.chosen ≠ some (x, origin) := by
  intro hchosen
  obtain ⟨id, hid⟩ := window_of_chosen hchosen
  exact hji (hinv.distinct j i other call x y id hj hi hwindow hid)

theorem windows_afterCall (hinv : WindowInv c) (hi : c.threads i = some (.service call))
    (h : TablesEffect c.shared.toWorld world call call') {j : ℕ} {other : Call} {x y : String}
    (hj : (afterCall c i world call').threads j = some (.service other))
    (hwindow : other.window = some (x, y)) :
    x = y ∧ ∃ row ∈ world.db.shots, row.canonical_shot_id = x := by
  obtain ⟨rfl, rfl⟩ | ⟨_, hj⟩ := afterCall_cases hj
  · obtain hbefore | ⟨heq, hrow, _⟩ := window_step h hwindow
    · exact (hinv.window j call x y hi hbefore).imp_right h.shotsEffect.stored
    · exact ⟨heq, hrow⟩
  · exact (hinv.window j other x y hj hwindow).imp_right h.shotsEffect.stored

theorem distinct_afterCall (hinv : WindowInv c) (hi : c.threads i = some (.service call))
    (h : TablesEffect c.shared.toWorld world call call') {j k : ℕ} {call₁ call₂ : Call}
    {x y z : String} (hj : (afterCall c i world call').threads j = some (.service call₁))
    (hk : (afterCall c i world call').threads k = some (.service call₂))
    (hy : call₁.window = some (x, y)) (hz : call₂.window = some (x, z)) : j = k := by
  -- A window the moving call gets is on a shot no other call has a window on.
  have hmoved {other : Call} {k : ℕ} {y z : String} (hk : c.threads k = some (.service other))
      (hy : call'.window = some (x, y)) (hz : other.window = some (x, z)) : i = k := by
    obtain hbefore | ⟨_, _, hfresh⟩ := window_step h hy
    · exact hinv.distinct i k call other x y z hi hk hbefore hz
    · obtain ⟨_, row, hrow, hid⟩ := hinv.window k other x z hk hz
      exact absurd hid (hfresh row hrow)
  obtain ⟨rfl, rfl⟩ | ⟨_, hj'⟩ := afterCall_cases hj
  · obtain ⟨rfl, _⟩ | ⟨_, hk'⟩ := afterCall_cases hk
    · rfl
    · exact hmoved hk' hy hz
  · obtain ⟨rfl, rfl⟩ | ⟨_, hk'⟩ := afterCall_cases hk
    · exact (hmoved hj' hz hy).symm
    · exact hinv.distinct j k call₁ call₂ x y z hj' hk' hy hz

end

/-! ### Cycles -/

section

variable {c : Config} {i : ℕ} {s s' : PublisherState} {label : PublisherLabel} {w' : OutboxWorld}

/-- A cycle leaves the shots alone, and no event is new. -/
theorem PublisherStep.tables (h : PublisherStep i c.shared s label w' s') :
    w'.db.shots = c.shared.db.shots ∧
      ∀ event ∈ w'.db.outbox_events, event ∈ c.shared.db.outbox_events := by
  cases h with
  | commit cycle => exact ⟨rfl, fun event hevent => List.mem_of_mem_filter hevent⟩
  | _ => exact ⟨rfl, fun event hevent => hevent⟩

/-- The configuration after a step of a cycle. -/
def afterCycleStep (c : Config) (i : ℕ) (w' : OutboxWorld) (s' : PublisherState) : Config :=
  ⟨w', Function.update c.threads i (some (.publisher s'))⟩

theorem afterCycleStep_cases {j : ℕ} {call : Call}
    (h : (afterCycleStep c i w' s').threads j = some (.service call)) :
    c.threads j = some (.service call) := by
  obtain ⟨_, heq⟩ | ⟨_, hj⟩ := Program.update_cases h
  · exact absurd heq (by simp)
  · exact hj

end

/-! ### Runs -/

/-- A call or a cycle that starts has no window, and has emitted nothing. -/
theorem Starts.spawned {i : ℕ} {p : OutboxCall} (h : Starts (.spawn i p)) :
    (∀ call, p = .service call → call.window = none) ∧
      ∀ s, p = .publisher s → s.cycle.emissions = [] := by
  cases p with
  | service call =>
      refine ⟨fun call' heq => ?_, fun s heq => absurd heq (by simp)⟩
      obtain rfl := OutboxCall.service.inj heq
      cases h with
      | process job =>
          rw [Ingestion.process]
          split <;> rfl
      | _ => rfl
  | publisher s =>
      refine ⟨fun call heq => absurd heq (by simp), fun s' heq => ?_⟩
      obtain rfl := OutboxCall.publisher.inj heq
      obtain rfl : s = .select := h
      rfl

theorem WindowInv.spawn {c : Config} {i : ℕ} {p : OutboxCall} (hinv : WindowInv c)
    (hstart : Starts (.spawn i p)) :
    WindowInv { c with threads := Function.update c.threads i (some p) } := by
  have hold {j : ℕ} {call : Call} {x y : String}
      (hj : Function.update c.threads i (some p) j = some (.service call))
      (hwindow : call.window = some (x, y)) : c.threads j = some (.service call) := by
    obtain ⟨_, heq⟩ | ⟨_, hj⟩ := Program.update_cases hj
    · exact absurd ((hstart.spawned.1 call heq).symm.trans hwindow) (by simp)
    · exact hj
  exact ⟨fun j call x y hj hwindow => hinv.window j call x y (hold hj hwindow) hwindow,
    fun j k call other x y z hj hk hy hz =>
      hinv.distinct j k call other x y z (hold hj hy) (hold hk hz) hy hz⟩

theorem WindowInv.step {deps : Deps} {c c' : Config} {a : Action} (hinv : WindowInv c)
    (hstart : Starts a) (hexec : (program deps).exec c a = some c') : WindowInv c' := by
  obtain ⟨i, p, rfl, _, rfl⟩ | ⟨i, e, p, w', q, rfl, hi, hstep, rfl⟩ | ⟨x, w', rfl, hevent, rfl⟩ :=
    Program.exec_cases hexec
  · exact hinv.spawn hstart
  · cases step_cases hstep with
    | service hservice =>
        have h := step_tablesEffect hservice
        exact ⟨fun j other x y hj => windows_afterCall hinv hi h hj,
          fun j k call₁ call₂ x y z hj hk => distinct_afterCall hinv hi h hj hk⟩
    | publisher hpublisher =>
        refine ⟨fun j call x y hj hwindow => ?_, fun j k call other x y z hj hk =>
          hinv.distinct j k call other x y z (afterCycleStep_cases hj) (afterCycleStep_cases hk)⟩
        rw [hpublisher.tables.1]
        exact hinv.window j call x y (afterCycleStep_cases hj) hwindow
  · obtain ⟨world, hworld, rfl⟩ := Option.map_eq_some_iff.mp hevent
    refine ⟨fun j call x y hj hwindow => ?_, hinv.distinct⟩
    rw [(event_same hworld).shots]
    exact hinv.window j call x y hj hwindow

/-! ### A shot that is stored -/

/-- The first drive is stored, and its event has been published. -/
def oneShot : Config where
  shared := { afterFirst.shared with locks := fun _ => none }
  threads := fun _ => none

end PureplayIngest.Outbox
