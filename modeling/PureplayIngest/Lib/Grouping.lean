import Mathlib.Algebra.Ring.Nat
import Mathlib.Data.List.Induction
import Mathlib.Data.List.Perm.Basic

/-!
Grouping a list by a key, as with a map that keeps its keys in the order in
which they were first set.
-/

namespace PureplayIngest.Lib.Grouping

variable {α κ : Type*} [DecidableEq κ]

/-- Add to the group of a key, which is opened at the end when there is none. -/
def push (k : κ) (a : α) : List (κ × List α) → List (κ × List α)
  | [] => [(k, [a])]
  | group :: groups =>
      if group.1 = k then (group.1, group.2 ++ [a]) :: groups else group :: push k a groups

def groupBy (key : α → κ) (rows : List α) : List (κ × List α) :=
  rows.foldl (fun groups a => push (key a) a groups) []

theorem flatMap_push (k : κ) (a : α) (groups : List (κ × List α)) :
    ((push k a groups).flatMap fun group => group.2).Perm
      ((groups.flatMap fun group => group.2) ++ [a]) := by
  induction groups with
  | nil => exact List.Perm.refl _
  | cons group groups ih =>
      rw [push]
      split
      · rw [List.flatMap_cons, List.flatMap_cons, List.append_assoc, List.append_assoc]
        exact List.perm_append_comm.append_left _
      · rw [List.flatMap_cons, List.flatMap_cons, List.append_assoc]
        exact ih.append_left _

/-- The groups hold what was grouped. -/
theorem flatMap_groupBy (key : α → κ) (rows : List α) :
    ((groupBy key rows).flatMap fun group => group.2).Perm rows := by
  have hfold (rows : List α) (groups : List (κ × List α)) :
      ((rows.foldl (fun groups a => push (key a) a groups) groups).flatMap
        fun group => group.2).Perm ((groups.flatMap fun group => group.2) ++ rows) := by
    induction rows generalizing groups with
    | nil => rw [List.append_nil]; exact List.Perm.refl _
    | cons a rows ih =>
        refine (ih _).trans ?_
        rw [List.append_cons]
        exact (flatMap_push _ _ _).append_right _
  exact hfold rows []

theorem sum_length_groupBy (key : α → κ) (rows : List α) :
    ((groupBy key rows).map fun group => group.2.length).sum = rows.length := by
  rw [← (flatMap_groupBy key rows).length_eq, List.length_flatMap]

/-! ### What is in a group -/

variable {key : α → κ} {rows rows' : List α} {groups : List (κ × List α)} {k k' : κ} {a : α}
  {l : List α}

theorem keys_push (k : κ) (a : α) (groups : List (κ × List α)) :
    (push k a groups).map Prod.fst =
      if k ∈ groups.map Prod.fst then groups.map Prod.fst else groups.map Prod.fst ++ [k] := by
  induction groups with
  | nil => rfl
  | cons group groups ih =>
      rw [push]
      split
      · rename_i h
        simp [h]
      · rename_i h
        rw [List.map_cons, List.map_cons, ih]
        split
        · rename_i hmem
          rw [if_pos (List.mem_cons_of_mem _ hmem)]
        · rename_i hmem
          rw [if_neg (by simp [Ne.symm h, hmem])]
          rfl

theorem mem_push_of_ne (h : k' ≠ k) : (k', l) ∈ push k a groups ↔ (k', l) ∈ groups := by
  induction groups with
  | nil => simp [push, h]
  | cons group groups ih =>
      rw [push]
      split
      · rename_i hk
        have hne (l' : List α) : (k', l) ≠ (group.1, l') := fun heq =>
          h ((Prod.mk.inj heq).1.trans hk)
        rw [List.mem_cons, List.mem_cons, or_iff_right (hne _), or_iff_right (hne group.2)]
      · rw [List.mem_cons, List.mem_cons, ih]

/-- The group that is added to is the one of the key, or a new one. -/
theorem mem_push_self (hkeys : (groups.map Prod.fst).Nodup) :
    (k, l) ∈ push k a groups ↔
      (∃ l', (k, l') ∈ groups ∧ l = l' ++ [a]) ∨ k ∉ groups.map Prod.fst ∧ l = [a] := by
  induction groups with
  | nil => simp [push]
  | cons group groups ih =>
      obtain ⟨k₁, l₁⟩ := group
      obtain ⟨hnot, hrest⟩ := List.nodup_cons.mp hkeys
      rw [push]
      split
      · rename_i hk
        obtain rfl : k₁ = k := hk
        have hother (l' : List α) : (k₁, l') ∉ groups := fun hmem =>
          hnot (List.mem_map.mpr ⟨(k₁, l'), hmem, rfl⟩)
        simp [hother]
      · rename_i hk
        have hk : k ≠ k₁ := Ne.symm hk
        simp only [List.mem_cons, Prod.mk.injEq, hk, false_and, false_or, ih hrest, List.map_cons]

/-- Each key has one group, and it holds the rows of the key in their order. -/
structure Grouped (key : α → κ) (rows : List α) (groups : List (κ × List α)) : Prop where
  nodup : (groups.map Prod.fst).Nodup
  mem_iff : ∀ k l, (k, l) ∈ groups ↔ l = rows.filter (key · = k) ∧ l ≠ []

theorem Grouped.mem_keys (h : Grouped key rows groups) :
    k ∈ groups.map Prod.fst ↔ ∃ a ∈ rows, key a = k := by
  constructor
  · intro hk
    obtain ⟨⟨_, l⟩, hmem, rfl⟩ := List.mem_map.mp hk
    obtain ⟨rfl, hne⟩ := (h.mem_iff _ _).mp hmem
    obtain ⟨a, ha⟩ := List.exists_mem_of_ne_nil _ hne
    exact ⟨a, List.mem_of_mem_filter ha, by simpa using List.of_mem_filter ha⟩
  · rintro ⟨a, ha, rfl⟩
    refine List.mem_map.mpr ⟨(key a, rows.filter (key · = key a)), ?_, rfl⟩
    refine (h.mem_iff _ _).mpr ⟨rfl, List.ne_nil_of_mem (a := a) ?_⟩
    exact List.mem_filter.mpr ⟨ha, decide_eq_true rfl⟩

theorem Grouped.push (h : Grouped key rows groups) (a : α) :
    Grouped key (rows ++ [a]) (push (key a) a groups) := by
  refine ⟨?_, fun k l => ?_⟩
  · rw [keys_push]
    split
    · exact h.nodup
    · rename_i hnot
      refine List.nodup_append.mpr ⟨h.nodup, List.pairwise_singleton _ _, fun k' hk' k hk heq => ?_⟩
      rw [heq, List.mem_singleton.mp hk] at hk'
      exact hnot hk'
  · by_cases hk : k = key a
    · subst hk
      have hnone : key a ∉ groups.map Prod.fst ↔ rows.filter (key · = key a) = [] := by
        rw [h.mem_keys, List.filter_eq_nil_iff]
        simp
      rw [mem_push_self h.nodup, List.filter_append, List.filter_singleton, decide_eq_true rfl,
        hnone]
      simp only [h.mem_iff]
      constructor
      · rintro (⟨l', ⟨rfl, _⟩, rfl⟩ | ⟨hnil, rfl⟩)
        · exact ⟨rfl, by simp⟩
        · exact ⟨by rw [hnil]; rfl, by simp⟩
      · rintro ⟨rfl, _⟩
        by_cases hnil : rows.filter (key · = key a) = []
        · exact .inr ⟨hnil, by rw [hnil]; rfl⟩
        · exact .inl ⟨_, ⟨rfl, hnil⟩, rfl⟩
    · rw [mem_push_of_ne hk, h.mem_iff, List.filter_append, List.filter_singleton,
        decide_eq_false (Ne.symm hk)]
      simp

/-- In another order the rows have the same keys. -/
theorem Grouped.keys_perm {groups' : List (κ × List α)} (h : Grouped key rows groups)
    (h' : Grouped key rows' groups') (hrows : rows.Perm rows') :
    (groups.map Prod.fst).Perm (groups'.map Prod.fst) := by
  rw [List.perm_ext_iff_of_nodup h.nodup h'.nodup]
  intro k
  simp only [h.mem_keys, h'.mem_keys, hrows.mem_iff]

theorem grouped_groupBy (key : α → κ) (rows : List α) : Grouped key rows (groupBy key rows) := by
  induction rows using List.reverseRecOn with
  | nil => exact ⟨List.nodup_nil, by simp [groupBy]⟩
  | append_singleton rows a ih =>
      rw [groupBy, List.foldl_append]
      exact ih.push a

end PureplayIngest.Lib.Grouping
