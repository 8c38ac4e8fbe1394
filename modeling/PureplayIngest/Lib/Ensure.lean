import Mathlib.Logic.Function.Basic

/-!
Scripts that are run again and again.

Each statement makes sure that there is an object of some name, or that there is
none; what is there already stays as it is. When no two statements of a script
make different objects of one name, it does not matter how often it has been begun
before and where it was left: a complete run ends with the same objects as one
that begins with none. And what a statement needs is there when those before it make
it and none removes it.
-/

namespace PureplayIngest.Lib

/-- `object` is what there is to be, `none` for nothing. -/
structure Ensure (ν ω : Type*) where
  target : ν
  object : Option ω

/-- An object that has to be there, and of which kind. -/
structure Need (ν ω : Type*) where
  name : ν
  kind : ω → Bool

/-- Each of the statements stands right with those before it, when `done` are the first. -/
def Ordered {σ : Type*} (P : List σ → σ → Prop) : List σ → List σ → Prop
  | _, [] => True
  | done, s :: rest => P done s ∧ Ordered P (done ++ [s]) rest

theorem Ordered.apply {σ : Type*} {P : List σ → σ → Prop} {done pre post : List σ} {s : σ}
    (h : Ordered P done (pre ++ s :: post)) : P (done ++ pre) s := by
  induction pre generalizing done with
  | nil =>
      rw [List.append_nil]
      exact h.1
  | cons s' pre ih =>
      have hrest := ih h.2
      rwa [List.append_assoc, List.singleton_append] at hrest

instance Ordered.decidable {σ : Type*} (P : List σ → σ → Prop)
    [hP : ∀ done s, Decidable (P done s)] : ∀ done rest, Decidable (Ordered P done rest)
  | _, [] => inferInstanceAs (Decidable True)
  | done, s :: rest =>
      haveI := Ordered.decidable P (done ++ [s]) rest
      inferInstanceAs (Decidable (P done s ∧ Ordered P (done ++ [s]) rest))

namespace Ensure

variable {ν ω : Type*} [DecidableEq ν] {s : Ensure ν ω} {ss done : List (Ensure ν ω)}
  {needs : List (Need ν ω)} {c : ν → Option ω} {n : ν} {o : ω}

def apply (c : ν → Option ω) (s : Ensure ν ω) : ν → Option ω :=
  Function.update c s.target (s.object.map fun o => (c s.target).getD o)

def Ready (c : ν → Option ω) (needs : List (Need ν ω)) : Prop :=
  ∀ need ∈ needs, ∃ o ∈ c need.name, need.kind o = true

instance (c : ν → Option ω) (needs : List (Need ν ω)) : Decidable (Ready c needs) :=
  inferInstanceAs (Decidable (∀ need ∈ needs, ∃ o ∈ c need.name, need.kind o = true))

/-- Every object is as the script makes it. -/
def Consistent (ss : List (Ensure ν ω)) (c : ν → Option ω) : Prop :=
  ∀ n, ∀ o ∈ c n, ∃ s ∈ ss, s.target = n ∧ s.object = some o

/-- No two statements make different objects of one name. -/
def UniqueObjects (ss : List (Ensure ν ω)) : Prop :=
  ∀ s ∈ ss, ∀ s' ∈ ss, s.target = s'.target → ∀ o ∈ s.object, ∀ o' ∈ s'.object, o = o'

/-- No statement removes the object. -/
def Stays (ss : List (Ensure ν ω)) (n : ν) : Prop :=
  ∀ s ∈ ss, s.target = n → s.object.isSome = true

/-- What is needed has been made by the statements before and stays. -/
def Provided (ss done : List (Ensure ν ω)) (needs : List (Need ν ω)) : Prop :=
  ∀ need ∈ needs, Stays ss need.name ∧
    ∃ s' ∈ done, s'.target = need.name ∧ ∃ o ∈ s'.object, need.kind o = true

instance [DecidableEq ω] (ss : List (Ensure ν ω)) : Decidable (UniqueObjects ss) :=
  inferInstanceAs (Decidable (∀ s ∈ ss, ∀ s' ∈ ss, s.target = s'.target →
    ∀ o ∈ s.object, ∀ o' ∈ s'.object, o = o'))

instance (ss : List (Ensure ν ω)) (n : ν) : Decidable (Stays ss n) :=
  inferInstanceAs (Decidable (∀ s ∈ ss, s.target = n → s.object.isSome = true))

instance (ss done : List (Ensure ν ω)) (needs : List (Need ν ω)) :
    Decidable (Provided ss done needs) :=
  inferInstanceAs (Decidable (∀ need ∈ needs, Stays ss need.name ∧
    ∃ s' ∈ done, s'.target = need.name ∧ ∃ o ∈ s'.object, need.kind o = true))

/-! ### One name at a time -/

theorem apply_self : apply c s s.target = s.object.map fun o => (c s.target).getD o :=
  Function.update_self ..

theorem apply_of_ne (h : n ≠ s.target) : apply c s n = c n := Function.update_of_ne h ..

theorem foldl_apply_of_not_mem (h : ∀ s ∈ ss, s.target ≠ n) : ss.foldl apply c n = c n := by
  induction ss generalizing c with
  | nil => rfl
  | cons s ss ih =>
      obtain ⟨hs, hss⟩ := List.forall_mem_cons.mp h
      rw [List.foldl_cons, ih hss, apply_of_ne (Ne.symm hs)]

/-- What becomes of a name depends on what it was only. -/
theorem foldl_apply_congr {c c' : ν → Option ω} (h : c n = c' n) :
    ss.foldl apply c n = ss.foldl apply c' n := by
  induction ss generalizing c c' with
  | nil => exact h
  | cons s ss ih =>
      refine ih ?_
      by_cases hn : n = s.target
      · subst hn
        rw [apply_self, apply_self, h]
      · rw [apply_of_ne hn, apply_of_ne hn, h]

/-- The object of a name, when it was there already and when it was not. -/
theorem foldl_apply_of_some {c' : ν → Option ω} (hunique : UniqueObjects ss)
    (hmade : ∃ s ∈ ss, s.target = n ∧ s.object = some o) (hc : c n = some o) (hc' : c' n = none) :
    ss.foldl apply c n = ss.foldl apply c' n := by
  induction ss generalizing c c' with
  | nil =>
      obtain ⟨s, hs, _⟩ := hmade
      exact absurd hs List.not_mem_nil
  | cons s ss ih =>
      rw [List.foldl_cons, List.foldl_cons]
      by_cases hn : s.target = n
      · -- The first statement that is about the name leaves no difference.
        apply foldl_apply_congr
        subst hn
        rw [apply_self, apply_self, hc, hc']
        cases hobject : s.object with
        | none => rfl
        | some o' =>
            obtain ⟨s', hs', htarget, ho⟩ := hmade
            obtain rfl := hunique s' hs' s List.mem_cons_self htarget o ho o' hobject
            rfl
      · refine ih (fun s₁ h₁ s₂ h₂ => hunique s₁ (List.mem_cons_of_mem _ h₁) s₂
          (List.mem_cons_of_mem _ h₂)) ?_ ?_ ?_
        · obtain ⟨s', hs', htarget, ho⟩ := hmade
          obtain rfl | hs' := List.mem_cons.mp hs'
          · exact absurd htarget hn
          · exact ⟨s', hs', htarget, ho⟩
        · rw [apply_of_ne (Ne.symm hn), hc]
        · rw [apply_of_ne (Ne.symm hn), hc']

/-! ### Runs -/

/-- A complete run ends with the same objects, whatever it has found. -/
theorem foldl_apply_of_consistent (hunique : UniqueObjects ss) (hc : Consistent ss c) :
    ss.foldl apply c = ss.foldl apply fun _ => none := by
  funext n
  cases hn : c n with
  | none => exact foldl_apply_congr hn
  | some o => exact foldl_apply_of_some hunique (hc n o hn) hn rfl

theorem Consistent.apply (hc : Consistent ss c) (hs : s ∈ ss) : Consistent ss (apply c s) := by
  intro n o ho
  by_cases hn : n = s.target
  · subst hn
    rw [apply_self] at ho
    obtain ⟨o', ho', rfl⟩ := Option.map_eq_some_iff.mp ho
    cases hold : c s.target with
    | none => exact ⟨s, hs, rfl, ho'⟩
    | some old => exact hc _ old hold
  · rw [apply_of_ne hn] at ho
    exact hc n o ho

theorem Consistent.foldl (hc : Consistent ss c) (h : ∀ s ∈ done, s ∈ ss) :
    Consistent ss (done.foldl Ensure.apply c) := by
  induction done generalizing c with
  | nil => exact hc
  | cons s done ih =>
      obtain ⟨hs, hdone⟩ := List.forall_mem_cons.mp h
      exact ih (hc.apply hs) hdone

/-- What has been made stays, when nothing removes it. -/
theorem isSome_foldl_apply (hstays : Stays done n)
    (h : (c n).isSome = true ∨ ∃ s ∈ done, s.target = n) :
    (done.foldl apply c n).isSome = true := by
  induction done generalizing c with
  | nil =>
      obtain h | ⟨s, hs, _⟩ := h
      · exact h
      · exact absurd hs List.not_mem_nil
  | cons s done ih =>
      refine ih (fun s' hs' => hstays s' (List.mem_cons_of_mem _ hs')) ?_
      by_cases hn : n = s.target
      · subst hn
        refine .inl ?_
        rw [apply_self, Option.isSome_map]
        exact hstays s List.mem_cons_self rfl
      · rw [apply_of_ne hn]
        obtain h | ⟨s', hs', htarget⟩ := h
        · exact .inl h
        · obtain rfl | hs' := List.mem_cons.mp hs'
          · exact absurd htarget.symm hn
          · exact .inr ⟨s', hs', htarget⟩

/-- What is needed is there, once the statements before have been run. -/
theorem ready_of_provided (hunique : UniqueObjects ss) (hc : Consistent ss c)
    (hdone : ∀ s ∈ done, s ∈ ss) (h : Provided ss done needs) :
    Ready (done.foldl apply c) needs := by
  intro need hneed
  obtain ⟨hstays, s', hs', htarget, o, ho, hkind⟩ := h need hneed
  have hsome := isSome_foldl_apply (c := c) (fun t ht => hstays t (hdone t ht))
    (.inr ⟨s', hs', htarget⟩)
  obtain ⟨o', ho'⟩ := Option.isSome_iff_exists.mp hsome
  obtain ⟨t, ht, htarget', hobject⟩ := hc.foldl hdone need.name o' ho'
  obtain rfl := hunique s' (hdone s' hs') t ht (htarget.trans htarget'.symm) o ho o' hobject
  exact ⟨o, ho', hkind⟩

end Ensure

end PureplayIngest.Lib
