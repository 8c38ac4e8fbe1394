import Mathlib.Data.List.Infix

/-!
Replacing what a search finds in a text, from left to right.

`find` says how long a match at the front of the text is. Nothing is searched
again that was part of a match, and neither is what was put in its place.
-/

namespace PureplayIngest.Lib

variable {α : Type*}

/-- The first `n` elements belong to the match before. -/
def replaceFrom (find : List α → Option ℕ) (replacement : List α) : ℕ → List α → List α
  | _, [] => []
  | n + 1, _ :: s => replaceFrom find replacement n s
  | 0, a :: s =>
      match find (a :: s) with
      | some n => replacement ++ replaceFrom find replacement (n - 1) s
      | none => a :: replaceFrom find replacement 0 s

section

variable {find : List α → Option ℕ} {replacement : List α}

theorem replaceFrom_nil (n : ℕ) : replaceFrom find replacement n [] = [] := by
  cases n <;> rfl

theorem replaceFrom_found {a : α} {s : List α} {n : ℕ} (h : find (a :: s) = some n) :
    replaceFrom find replacement 0 (a :: s) =
      replacement ++ replaceFrom find replacement (n - 1) s := by
  rw [replaceFrom, h]

theorem replaceFrom_none {a : α} {s : List α} (h : find (a :: s) = none) :
    replaceFrom find replacement 0 (a :: s) = a :: replaceFrom find replacement 0 s := by
  rw [replaceFrom, h]

/-! ### Nothing is left to be found -/

theorem infix_append_cons {m s t : List α} {mark : α} (hm : mark ∉ m)
    (h : m <:+: s ++ mark :: t) : m <:+: s ∨ m <:+: t := by
  obtain h | h | ⟨m₁, m₂, rfl, hm₁, hm₂⟩ := List.infix_append_iff.mp h
  · exact .inl h
  · obtain h | h := List.infix_cons_iff.mp h
    · obtain rfl | ⟨m', rfl, _⟩ := List.prefix_cons_iff.mp h
      · exact .inl (List.nil_infix)
      · exact absurd List.mem_cons_self hm
    · exact .inr h
  · obtain rfl | ⟨m', rfl, _⟩ := List.prefix_cons_iff.mp hm₂
    · exact .inl (by simpa using hm₁.isInfix)
    · exact absurd (List.mem_append_right m₁ List.mem_cons_self) hm

/-- A text that does not have the mark the replacement begins with is in front
of the result only where it was in front before. -/
theorem prefix_of_replaceFrom {mark : α} {marked m s : List α}
    (hreplacement : replacement = mark :: marked) (hm : mark ∉ m)
    (h : m <+: replaceFrom find replacement 0 s) : m <+: s := by
  induction s generalizing m with
  | nil => exact h
  | cons a s ih =>
      cases hfind : find (a :: s) with
      | some n =>
          rw [replaceFrom_found hfind, hreplacement, List.cons_append] at h
          obtain rfl | ⟨m', rfl, _⟩ := List.prefix_cons_iff.mp h
          · exact List.nil_prefix
          · exact absurd List.mem_cons_self hm
      | none =>
          rw [replaceFrom_none hfind] at h
          obtain rfl | ⟨m', rfl, hm'⟩ := List.prefix_cons_iff.mp h
          · exact List.nil_prefix
          · have hrest : mark ∉ m' := fun hmem => hm (List.mem_cons_of_mem a hmem)
            exact List.cons_prefix_cons.mpr ⟨rfl, ih hrest hm'⟩

/-- The result contains no `Match` when the search overlooks none, and when the
replacement is set off by marks that no `Match` has. -/
theorem not_infix_replaceFrom {Match : List α → Prop} {first last : α} {middle : List α}
    (hreplacement : replacement = first :: middle ++ [last])
    (hfind : ∀ m s, Match m → m <+: s → (find s).isSome)
    (hfirst : ∀ m, Match m → first ∉ m) (hlast : ∀ m, Match m → last ∉ m)
    (hmiddle : ∀ m, Match m → ¬ m <:+: middle) (hnil : ¬ Match []) (n : ℕ) (s : List α)
    {m : List α} (hm : Match m) : ¬ m <:+: replaceFrom find replacement n s := by
  induction n, s using replaceFrom.induct find with
  | case1 n =>
      rw [replaceFrom_nil, List.infix_nil]
      rintro rfl
      exact hnil hm
  | case2 n a s ih => exact ih
  | case3 a s n hfound ih =>
      rw [replaceFrom_found hfound, hreplacement, List.append_assoc, List.singleton_append]
      intro h
      -- A match would have to lie between the ends of one replacement, or behind it.
      obtain h | h := infix_append_cons (hlast m hm) h
      · rw [← List.nil_append (first :: middle)] at h
        obtain h | h := infix_append_cons (hfirst m hm) h
        · exact hnil (List.infix_nil.mp h ▸ hm)
        · exact hmiddle m hm h
      · exact ih (hreplacement ▸ h)
  | case4 a s hfound ih =>
      rw [replaceFrom_none hfound]
      intro h
      obtain h | h := List.infix_cons_iff.mp h
      · rw [← replaceFrom_none hfound] at h
        have hprefix : m <+: a :: s :=
          prefix_of_replaceFrom (hreplacement.trans (List.cons_append ..)) (hfirst m hm) h
        simpa [hfound] using hfind m _ hm hprefix
      · exact ih h

/-! ### Where a match ends at the latest -/

/-- The search takes up some of the text, and not more than there is. -/
def Bounded (find : List α → Option ℕ) : Prop :=
  ∀ s n, find s = some n → 0 < n ∧ n ≤ s.length

/-- No match reaches beyond the stop. -/
def StopsAt (find : List α → Option ℕ) (stop : α) : Prop :=
  ∀ s t, find (s ++ stop :: t) = find s

/-- What stands before a stop and what stands after it are replaced separately. -/
theorem replaceFrom_append_stop {stop : α} (hbounded : Bounded find) (hstop : StopsAt find stop)
    {n : ℕ} {s : List α} (hn : n ≤ s.length) (t : List α) :
    replaceFrom find replacement n (s ++ stop :: t) =
      replaceFrom find replacement n s ++ stop :: replaceFrom find replacement 0 t := by
  induction s generalizing n with
  | nil =>
      obtain rfl : n = 0 := Nat.le_zero.mp hn
      have hnone : find (stop :: t) = none := by
        have hnil := hstop [] t
        cases hfind : find [] with
        | none => exact hnil.trans hfind
        | some k =>
            have := hbounded _ _ hfind
            simp only [List.length_nil] at this
            omega
      rw [List.nil_append, replaceFrom_none hnone, replaceFrom_nil, List.nil_append]
  | cons a s ih =>
      rw [List.cons_append]
      cases n with
      | succ n => exact ih (Nat.le_of_succ_le_succ hn)
      | zero =>
          -- A match is found or not without looking past the stop, and ends before it.
          have hfront : find (a :: (s ++ stop :: t)) = find (a :: s) := hstop (a :: s) t
          cases hfind : find (a :: s) with
          | none =>
              rw [replaceFrom_none hfind, replaceFrom_none (hfront.trans hfind),
                ih (Nat.zero_le _), List.cons_append]
          | some k =>
              have hk : k - 1 ≤ s.length := by
                have := (hbounded _ _ hfind).2
                rw [List.length_cons] at this
                omega
              rw [replaceFrom_found hfind, replaceFrom_found (hfront.trans hfind), ih hk,
                List.append_assoc]

theorem replaceFrom_eq_self {s : List α} (h : ∀ t, t <:+ s → find t = none) :
    replaceFrom find replacement 0 s = s := by
  induction s with
  | nil => rfl
  | cons a s ih =>
      rw [replaceFrom_none (h _ List.suffix_rfl),
        ih fun t ht => h t (ht.trans (List.suffix_cons a s))]

end

end PureplayIngest.Lib
