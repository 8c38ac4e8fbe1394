import Mathlib.Data.List.Basic
import Mathlib.Data.List.Induction

/-!
Reading a text back that was joined with a separator.

Two texts joined by one separator can be cut apart again in as many ways as
the separator occurs in the joined text. `cut_cases` says how two cuts of one
text relate: they are the same cut, or the separator of one of them lies
inside the first part of the other. Where the parts on one side cannot
contain the separator there is only one cut.
-/

namespace PureplayIngest.Lib

variable {α : Type*} {sep : α} {a b a' b' : List α}

theorem cut_cases (h : a ++ sep :: b = a' ++ sep :: b') :
    (a = a' ∧ b = b') ∨ (∃ y, a = a' ++ sep :: y ∧ b' = y ++ sep :: b) ∨
      (∃ y, a' = a ++ sep :: y ∧ b = y ++ sep :: b') := by
  rcases List.append_eq_append_iff.mp h with ⟨z, ha', hb⟩ | ⟨z, ha, hb'⟩
  · cases z with
    | nil => exact .inl ⟨by simpa using ha'.symm, by simpa using hb⟩
    | cons s y =>
        obtain ⟨rfl, rfl⟩ : sep = s ∧ b = y ++ sep :: b' := by simpa using hb
        exact .inr (.inr ⟨y, ha', rfl⟩)
  · cases z with
    | nil => exact .inl ⟨by simpa using ha, by simpa using hb'.symm⟩
    | cons s y =>
        obtain ⟨rfl, rfl⟩ : sep = s ∧ b' = y ++ sep :: b := by simpa using hb'
        exact .inr (.inl ⟨y, ha, rfl⟩)

/-- The last part is read off at the last separator when it contains none. -/
theorem cut_last (hb : sep ∉ b) (hb' : sep ∉ b') (h : a ++ sep :: b = a' ++ sep :: b') :
    a = a' ∧ b = b' := by
  rcases cut_cases h with heq | ⟨y, _, rfl⟩ | ⟨y, _, rfl⟩
  · exact heq
  · simp at hb'
  · simp at hb

/-- The first part is read off at the first separator when it contains none. -/
theorem cut_first (ha : sep ∉ a) (ha' : sep ∉ a') (h : a ++ sep :: b = a' ++ sep :: b') :
    a = a' ∧ b = b' := by
  rcases cut_cases h with heq | ⟨y, rfl, _⟩ | ⟨y, rfl, _⟩
  · exact heq
  · simp at ha
  · simp at ha'

/-- Any number of last parts are read off when none of them contains the separator. -/
theorem cut_parts {parts parts' : List (List α)} (hlength : parts.length = parts'.length)
    (hparts : ∀ p ∈ parts, sep ∉ p) (hparts' : ∀ p ∈ parts', sep ∉ p)
    (h : a ++ parts.flatMap (sep :: ·) = a' ++ parts'.flatMap (sep :: ·)) :
    a = a' ∧ parts = parts' := by
  induction parts using List.reverseRecOn generalizing parts' with
  | nil =>
      obtain rfl := List.eq_nil_of_length_eq_zero hlength.symm
      exact ⟨by simpa using h, rfl⟩
  | append_singleton parts p ih =>
      obtain rfl | ⟨others, q, rfl⟩ := List.eq_nil_or_concat' parts'
      · simp at hlength
      · simp only [List.forall_mem_append, List.forall_mem_singleton] at hparts hparts'
        simp only [List.flatMap_append, List.flatMap_singleton, ← List.append_assoc] at h
        obtain ⟨hbefore, rfl⟩ := cut_last hparts.2 hparts'.2 h
        obtain ⟨rfl, rfl⟩ := ih (by simpa using hlength) hparts.1 hparts'.1 hbefore
        exact ⟨rfl, rfl⟩

/-- Two cuts are the same when as many separators lie before the one as before the other. -/
theorem cut_of_count [DecidableEq α] (hcount : a.count sep = a'.count sep)
    (h : a ++ sep :: b = a' ++ sep :: b') : a = a' ∧ b = b' := by
  rcases cut_cases h with heq | ⟨y, rfl, _⟩ | ⟨y, rfl, _⟩
  · exact heq
  · rw [List.count_append, List.count_cons_self] at hcount
    omega
  · rw [List.count_append, List.count_cons_self] at hcount
    omega

/-- Two parts are joined unambiguously, among the pairs `ok` allows, when no
separator inside either of them could be taken for the joining one. -/
def OneCut (ok : List α → List α → Prop) (sep : α) (a b : List α) : Prop :=
  (∀ x y, a = x ++ sep :: y → ¬ ok x (y ++ sep :: b)) ∧
    (∀ x y, b = x ++ sep :: y → ¬ ok (a ++ sep :: x) y)

/-- `OneCut` is exactly what makes the join injective at a pair. -/
theorem oneCut_iff {ok : List α → List α → Prop} :
    OneCut ok sep a b ↔
      ∀ a' b', ok a' b' → a' ++ sep :: b' = a ++ sep :: b → a' = a ∧ b' = b := by
  constructor
  · rintro ⟨hleft, hright⟩ a' b' hok h
    rcases cut_cases h with heq | ⟨y, rfl, rfl⟩ | ⟨y, rfl, rfl⟩
    · exact heq
    · exact absurd hok (hright y b' rfl)
    · exact absurd hok (hleft a' y rfl)
  · intro h
    constructor
    · rintro x y rfl hok
      have := (h x (y ++ sep :: b) hok (by simp)).1
      simp at this
    · rintro x y rfl hok
      have := (h (a ++ sep :: x) y hok (by simp)).1
      simp at this

end PureplayIngest.Lib
