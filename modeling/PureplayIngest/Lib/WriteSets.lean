import Mathlib.Data.List.Basic
import Mathlib.Data.Nat.Notation

/-!
What open transactions have written and not committed: a list of writes,
each with the transaction it belongs to, in the order they were made. A
commit takes a transaction's writes out of the list and publishes them, a
rollback only takes them out.
-/

namespace PureplayIngest.Lib

abbrev WriteSets (ι α : Type*) := List (ι × α)

namespace WriteSets

variable {ι α : Type*} [DecidableEq ι] {ws : WriteSets ι α} {i j : ι} {x : α}

/-- The writes of one transaction. -/
def of (ws : WriteSets ι α) (i : ι) : List α :=
  ws.filterMap fun w => if w.1 = i then some w.2 else none

/-- The writes that are left when one transaction ends. -/
def without (ws : WriteSets ι α) (i : ι) : WriteSets ι α := ws.filter fun w => w.1 ≠ i

theorem mem_of : x ∈ ws.of i ↔ (i, x) ∈ ws := by
  simp only [of, List.mem_filterMap, Option.ite_none_right_eq_some, Option.some.injEq]
  constructor
  · rintro ⟨⟨k, y⟩, hmem, rfl, rfl⟩
    exact hmem
  · intro hmem
    exact ⟨(i, x), hmem, rfl, rfl⟩

theorem mem_without {w : ι × α} : w ∈ ws.without i ↔ w ∈ ws ∧ w.1 ≠ i := by
  simp only [without, List.mem_filter, decide_eq_true_eq]

@[simp] theorem of_append_self : of (ws ++ [(i, x)]) i = ws.of i ++ [x] := by
  simp [of, List.filterMap_append]

theorem of_append_of_ne (h : j ≠ i) : of (ws ++ [(i, x)]) j = ws.of j := by
  simp [of, List.filterMap_append, h.symm]

@[simp] theorem of_without_self : (ws.without i).of i = [] := by
  refine List.eq_nil_iff_forall_not_mem.mpr fun x hx => ?_
  exact (mem_without.mp (mem_of.mp hx)).2 rfl

theorem of_without_of_ne (h : j ≠ i) : (ws.without i).of j = ws.of j := by
  rw [without, of, List.filterMap_filter, of]
  refine List.filterMap_congr fun w _ => ?_
  by_cases hw : w.1 = j
  · rw [if_pos hw, if_pos (by simpa [hw] using h)]
  · simp [hw]

end WriteSets

end PureplayIngest.Lib
