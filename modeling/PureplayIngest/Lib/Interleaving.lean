import Mathlib.Data.Nat.Notation
import PureplayIngest.Lib.TransitionSystem

/-!
Processes interleaved over a shared state.

A `Program` gives the atomic steps of one process: from the shared state and
the process's local state, and a label that resolves what the step leaves
open, to the new shared and local states. The environment may change the
shared state on its own. `Program.system` runs any number of such processes
side by side, in every order of their steps; a process that has finished
keeps its last local state, so that what it returned can be read off the
configuration.

The rule proved here is the one of Owicki and Gries: an invariant of the
shared state together with an assertion about each process, where every step
has to establish the assertion of the process that moves and to keep those
of all the others.
-/

namespace PureplayIngest.Lib

/-- Atomic steps of the processes `ι` over a shared state `σ`. -/
structure Program (ι σ π ε η : Type*) where
  step : ι → σ → π → ε → Option (σ × π)
  env : σ → η → Option σ

structure Config (ι σ π : Type*) where
  shared : σ
  threads : ι → Option π

inductive Action (ι π ε η : Type*)
  | spawn (i : ι) (p : π)
  | step (i : ι) (e : ε)
  | env (x : η)

/-- A configuration, seen through a map of the shared and one of the local states. -/
def Config.map {ι σ π σ' π' : Type*} (f : σ → σ') (g : π → π') (c : Config ι σ π) :
    Config ι σ' π' :=
  ⟨f c.shared, fun i => (c.threads i).map g⟩

def Action.map {ι π π' ε η : Type*} (g : π → π') : Action ι π ε η → Action ι π' ε η
  | .spawn i p => .spawn i (g p)
  | .step i e => .step i e
  | .env x => .env x

namespace Program

variable {ι σ π ε η : Type*} [DecidableEq ι] (P : Program ι σ π ε η)

def exec (c : Config ι σ π) : Action ι π ε η → Option (Config ι σ π)
  | .spawn i p =>
      match c.threads i with
      | none => some { c with threads := Function.update c.threads i (some p) }
      | some _ => none
  | .step i e =>
      match c.threads i with
      | none => none
      | some p => (P.step i c.shared p e).map fun r =>
          { shared := r.1, threads := Function.update c.threads i (some r.2) }
  | .env x => (P.env c.shared x).map fun s => { c with shared := s }

/-- The system of all interleavings, started from the shared states `init`
admits with no process running. -/
def system (init : σ → Prop) : System (Config ι σ π) (Action ι π ε η) where
  init c := init c.shared ∧ ∀ i, c.threads i = none
  exec := P.exec

@[simp] theorem system_exec (init : σ → Prop) : (P.system init).exec = P.exec := rfl

variable {P}

/-- What an admitted action can have been. -/
theorem exec_cases {c c' : Config ι σ π} {a : Action ι π ε η} (h : P.exec c a = some c') :
    (∃ i p, a = .spawn i p ∧ c.threads i = none ∧
      c' = { c with threads := Function.update c.threads i (some p) }) ∨
    (∃ i e p s q, a = .step i e ∧ c.threads i = some p ∧
      P.step i c.shared p e = some (s, q) ∧
      c' = { shared := s, threads := Function.update c.threads i (some q) }) ∨
    (∃ x s, a = .env x ∧ P.env c.shared x = some s ∧ c' = { c with shared := s }) := by
  cases a with
  | spawn i p =>
      cases hi : c.threads i with
      | none => exact .inl ⟨i, p, rfl, hi, by simpa [exec, hi] using h.symm⟩
      | some q => simp [exec, hi] at h
  | step i e =>
      cases hi : c.threads i with
      | none => simp [exec, hi] at h
      | some p =>
          simp only [exec, hi, Option.map_eq_some_iff] at h
          obtain ⟨⟨s, q⟩, hstep, rfl⟩ := h
          exact .inr (.inl ⟨i, e, p, s, q, rfl, hi, hstep, rfl⟩)
  | env x =>
      simp only [exec, Option.map_eq_some_iff] at h
      obtain ⟨s, henv, rfl⟩ := h
      exact .inr (.inr ⟨x, s, rfl, henv, rfl⟩)

/-- A process of a configuration in which one has moved. -/
theorem update_cases {threads : ι → Option π} {i j : ι} {q r : π}
    (h : Function.update threads i (some q) j = some r) :
    j = i ∧ q = r ∨ j ≠ i ∧ threads j = some r := by
  by_cases hji : j = i
  · subst j
    exact .inl ⟨rfl, by simpa using h⟩
  · exact .inr ⟨hji, by rwa [Function.update_of_ne hji] at h⟩

/-- A process that is not started stays so. -/
theorem threads_of_execAll {init : σ → Prop} {c c' : Config ι σ π} {as : List (Action ι π ε η)}
    {j : ι} (h : (P.system init).execAll c as = some c') (hj : c.threads j = none)
    (hspawn : ∀ p, .spawn j p ∉ as) : c'.threads j = none := by
  induction as generalizing c with
  | nil => exact Option.some.inj h ▸ hj
  | cons a as ih =>
      rw [System.execAll, Option.bind_eq_some_iff] at h
      obtain ⟨c₁, hexec, hrest⟩ := h
      refine ih hrest ?_ fun p hp => hspawn p (List.mem_cons_of_mem _ hp)
      obtain ⟨i, p, rfl, _, rfl⟩ | ⟨i, e, p, s, q, rfl, hi, _, rfl⟩ | ⟨x, s, rfl, _, rfl⟩ :=
        exec_cases hexec
      · have hne : j ≠ i := fun h => hspawn p (h ▸ List.mem_cons_self)
        exact (Function.update_of_ne hne ..).trans hj
      · have hne : j ≠ i := by
          rintro rfl
          exact absurd (hj.symm.trans hi) (by simp)
        exact (Function.update_of_ne hne ..).trans hj
      · exact hj

/-- Only finitely many processes have been started. -/
theorem exists_unstarted {P : Program ℕ σ π ε η} {init : σ → Prop}
    {G : Config ℕ σ π → Action ℕ π ε η → Prop} {c : Config ℕ σ π}
    (h : (P.system init).Reach G c) : ∃ n, ∀ i ≥ n, c.threads i = none := by
  refine h.invariant (I := fun c => ∃ n, ∀ i ≥ n, c.threads i = none)
    (fun c₀ h₀ => ⟨0, fun i _ => h₀.2 i⟩) fun c a c' hinv _ hexec => ?_
  obtain ⟨n, hn⟩ := hinv
  obtain ⟨i, p, rfl, _, rfl⟩ | ⟨i, e, p, s, q, rfl, hi, _, rfl⟩ | ⟨x, s, rfl, _, rfl⟩ :=
    exec_cases hexec
  · refine ⟨max n (i + 1), fun j hj => ?_⟩
    exact (Function.update_of_ne (by omega) ..).trans (hn j (by omega))
  · refine ⟨max n (i + 1), fun j hj => ?_⟩
    exact (Function.update_of_ne (by omega) ..).trans (hn j (by omega))
  · exact ⟨n, hn⟩

/-- What holds of the first `n` processes holds of all when there are no others. -/
theorem forall_of_lt {threads : ℕ → Option π} {n : ℕ} {A : π → Prop}
    (hnone : ∀ j, threads (j + n) = none)
    (h : ∀ j < n, ∃ p, threads j = some p ∧ A p) (j : ℕ) (p : π) (hj : threads j = some p) :
    A p := by
  by_cases hjn : j < n
  · obtain ⟨q, hq, hA⟩ := h j hjn
    exact Option.some.inj (hq.symm.trans hj) ▸ hA
  · obtain ⟨k, rfl⟩ := Nat.exists_eq_add_of_le' (Nat.not_lt.mp hjn)
    exact absurd ((hnone k).symm.trans hj) (by simp)

section Map

variable {σ' π' : Type*} {f : σ → σ'} {g : π → π'} {P' : Program ι σ' π' ε η}

theorem update_map (g : π → π') (threads : ι → Option π) (i : ι) (p : π) :
    Function.update (fun j => (threads j).map g) i (some (g p)) =
      fun j => (Function.update threads i (some p) j).map g := by
  funext j
  by_cases hji : j = i
  · subst j
    rw [Function.update_self, Function.update_self, Option.map_some]
  · rw [Function.update_of_ne hji, Function.update_of_ne hji]

/-- A program that mirrors every step of a process mirrors every action. -/
theorem exec_map
    (hstep : ∀ i s p e s' p', P.step i s p e = some (s', p') →
      P'.step i (f s) (g p) e = some (f s', g p'))
    (henv : ∀ s x s', P.env s x = some s' → P'.env (f s) x = some (f s'))
    {c c' : Config ι σ π} {a : Action ι π ε η} (h : P.exec c a = some c') :
    P'.exec (c.map f g) (a.map g) = some (c'.map f g) := by
  obtain ⟨i, p, rfl, hi, rfl⟩ | ⟨i, e, p, s', p', rfl, hi, hmove, rfl⟩ |
      ⟨x, s', rfl, hevent, rfl⟩ := exec_cases h
  · simp only [exec, Action.map, Config.map, hi, Option.map_none, update_map]
  · simp only [exec, Action.map, Config.map, hi, Option.map_some, hstep _ _ _ _ _ _ hmove,
      update_map]
  · simp only [exec, Action.map, Config.map, henv _ _ _ hevent, Option.map_some]

end Map

/-- An invariant of the shared state and an assertion about each process. -/
structure Inv (I : σ → Prop) (J : ι → σ → π → Prop) (c : Config ι σ π) : Prop where
  shared : I c.shared
  threads : ∀ i p, c.threads i = some p → J i c.shared p

/-- One action keeps shared invariant and process assertions when every step
establishes the mover's assertion and does not interfere with the others'. -/
theorem Inv.step {I : σ → Prop} {J : ι → σ → π → Prop} {c c' : Config ι σ π}
    {a : Action ι π ε η} (hinv : Inv I J c) (hexec : P.exec c a = some c')
    (hspawn : ∀ i p, a = .spawn i p → J i c.shared p)
    (hstep : ∀ i e p s q, a = .step i e → c.threads i = some p →
      P.step i c.shared p e = some (s, q) →
      I s ∧ J i s q ∧ ∀ j r, j ≠ i → c.threads j = some r → J j s r)
    (henv : ∀ x s, a = .env x → P.env c.shared x = some s →
      I s ∧ ∀ j r, c.threads j = some r → J j s r) : Inv I J c' := by
  obtain ⟨i, p, rfl, _, rfl⟩ | ⟨i, e, p, s, q, rfl, hi, hs, rfl⟩ | ⟨x, s, rfl, hs, rfl⟩ :=
    exec_cases hexec
  · refine ⟨hinv.shared, fun j r hj => ?_⟩
    obtain ⟨rfl, rfl⟩ | ⟨_, hj⟩ := update_cases hj
    · exact hspawn j p rfl
    · exact hinv.threads j r hj
  · obtain ⟨hI, hown, hothers⟩ := hstep i e p s q rfl hi hs
    refine ⟨hI, fun j r hj => ?_⟩
    obtain ⟨rfl, rfl⟩ | ⟨hji, hj⟩ := update_cases hj
    · exact hown
    · exact hothers j r hji hj
  · obtain ⟨hI, hothers⟩ := henv x s rfl hs
    exact ⟨hI, fun j r hj => hothers j r hj⟩

end Program

end PureplayIngest.Lib
