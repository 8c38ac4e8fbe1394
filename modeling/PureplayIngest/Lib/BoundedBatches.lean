import Mathlib.Data.List.Sort

/-!
A queue that is worked off in batches of bounded size, the oldest items first,
and in which the bad items stay.

What can go wrong is that the bad items fill the batch. An item is blocked
when at least `limit` bad ones are as old as it is. While a good item is not
blocked every batch holds a good one, and the queue is worked off; a blocked
item may be passed over for ever.
-/

namespace PureplayIngest.Lib.BoundedBatches

variable {α κ : Type*} [DecidableEq α] [LinearOrder κ] (age : α → κ) (bad : α → Bool) (limit : ℕ)

/-- A choice of the oldest `limit` items, in the order of their age. -/
structure IsBatch (items batch : List α) : Prop where
  mem : ∀ a ∈ batch, a ∈ items
  nodup : batch.Nodup
  sorted : batch.Pairwise fun a b => age a ≤ age b
  length : batch.length = min limit items.length
  oldest : ∀ a ∈ items, a ∉ batch → ∀ b ∈ batch, age b ≤ age a

/-- What stays in the queue: the bad items, and those that are not in the batch. -/
def kept (items batch : List α) : List α := items.filter fun a => bad a ∨ a ∉ batch

/-- The batches of successive rounds, and the items that are left after them. -/
inductive Rounds : List α → List (List α) → List α → Prop
  | nil (items : List α) : Rounds items [] items
  | cons {items batch rest : List α} {batches : List (List α)}
      (hbatch : IsBatch age limit items batch)
      (tail : Rounds (kept bad items batch) batches rest) : Rounds items (batch :: batches) rest

/-- The bad items that are as old as an item. -/
def ahead (items : List α) (a : α) : List α := items.filter fun b => bad b ∧ age b ≤ age a

def good (items : List α) : List α := items.filter fun a => !bad a

def Unblocked (items : List α) : Prop :=
  ∀ a ∈ items, bad a = false → (ahead age bad items a).length < limit

section Kept

variable {age bad limit} {items batch rest : List α} {batches : List (List α)} {a : α}

theorem mem_kept : a ∈ kept bad items batch ↔ a ∈ items ∧ (bad a ∨ a ∉ batch) := by
  rw [kept, List.mem_filter, decide_eq_true_eq]

omit [DecidableEq α] in
theorem mem_good : a ∈ good bad items ↔ a ∈ items ∧ bad a = false := by
  rw [good, List.mem_filter, Bool.not_eq_true']

theorem nodup_kept (h : items.Nodup) : (kept bad items batch).Nodup := h.filter _

theorem filter_kept {p : α → Bool} (hp : ∀ a, p a → bad a) :
    (kept bad items batch).filter p = items.filter p := by
  rw [kept, List.filter_filter]
  refine List.filter_congr fun a _ => ?_
  cases hpa : p a with
  | false => rfl
  | true => simp [hp a hpa]

theorem bad_kept : (kept bad items batch).filter bad = items.filter bad :=
  filter_kept fun _ h => h

theorem ahead_kept : ahead age bad (kept bad items batch) a = ahead age bad items a :=
  filter_kept fun b hb => ((decide_eq_true_iff (p := bad b ∧ age b ≤ age a)).mp hb).1

theorem Unblocked.kept (h : Unblocked age bad limit items) (batch : List α) :
    Unblocked age bad limit (kept bad items batch) := by
  intro a ha hgood
  rw [ahead_kept]
  exact h a (mem_kept.mp ha).1 hgood

/-! ### Batches that make progress -/

omit [DecidableEq α] in
/-- As long as a good item is left that is not blocked, the next batch holds a good item. -/
theorem IsBatch.exists_good (h : IsBatch age limit items batch) (ha : a ∈ items)
    (hgood : bad a = false) (hahead : (ahead age bad items a).length < limit) :
    ∃ b ∈ batch, bad b = false := by
  by_contra hnone
  have hbad : ∀ b ∈ batch, bad b = true := by
    intro b hb
    cases hb' : bad b with
    | true => rfl
    | false => exact absurd ⟨b, hb, hb'⟩ hnone
  have hnot : a ∉ batch := fun hmem => by
    have hbad' := hbad a hmem
    rw [hgood] at hbad'
    exact absurd hbad' (by simp)
  -- The batch is part of what is ahead of the item, so it is not full.
  have hsub : batch ⊆ ahead age bad items a := fun b hb =>
    List.mem_filter.mpr ⟨h.mem b hb, decide_eq_true ⟨hbad b hb, h.oldest a ha hnot b hb⟩⟩
  have hshort := (List.subperm_of_subset h.nodup hsub).length_le
  -- But a batch that is not full holds all the items.
  have hall : (a :: batch).length ≤ items.length := by
    refine (List.subperm_of_subset (List.nodup_cons.mpr ⟨hnot, h.nodup⟩) ?_).length_le
    exact List.cons_subset.mpr ⟨ha, h.mem⟩
  have hlength := h.length
  rw [List.length_cons] at hall
  omega

/-- Of the good items at least one is gone after a round. -/
theorem IsBatch.fewer (h : IsBatch age limit items batch)
    (hblocked : Unblocked age bad limit items) :
    (good bad (kept bad items batch)).length ≤ (good bad items).length - 1 := by
  have hsub : (good bad (kept bad items batch)).Sublist (good bad items) :=
    List.filter_sublist.filter _
  have hle := hsub.length_le
  by_cases hleft : good bad items = []
  · rw [hleft] at hle ⊢
    exact hle
  · obtain ⟨a, ha⟩ := List.exists_mem_of_ne_nil _ hleft
    obtain ⟨ha, hgood⟩ := mem_good.mp ha
    obtain ⟨b, hb, hgood⟩ := h.exists_good ha hgood (hblocked a ha hgood)
    have hgone : b ∉ good bad (kept bad items batch) := by
      intro hmem
      rcases (mem_kept.mp (mem_good.mp hmem).1).2 with hbad | hnot
      · exact absurd (hgood.symm.trans hbad) (by simp)
      · exact hnot hb
    have hne : (good bad (kept bad items batch)).length ≠ (good bad items).length := by
      intro heq
      rw [hsub.eq_of_length heq] at hgone
      exact hgone (mem_good.mpr ⟨h.mem b hb, hgood⟩)
    omega

namespace Rounds

/-- No round takes a bad item away. -/
theorem filter_bad (h : Rounds age bad limit items batches rest) :
    rest.filter bad = items.filter bad := by
  induction h with
  | nil items => rfl
  | cons hbatch tail ih => rw [ih, bad_kept]

theorem fewer (h : Rounds age bad limit items batches rest)
    (hblocked : Unblocked age bad limit items) :
    (good bad rest).length ≤ (good bad items).length - batches.length := by
  induction h with
  | nil items => exact Nat.le_refl _
  | @cons items batch rest batches hbatch tail ih =>
      have hround := hbatch.fewer hblocked
      have hrest := ih (hblocked.kept batch)
      rw [List.length_cons]
      omega

/-- As many rounds as there are items leave the bad ones only. -/
theorem drained (h : Rounds age bad limit items batches rest)
    (hblocked : Unblocked age bad limit items) (hlength : items.length ≤ batches.length) :
    rest = items.filter bad := by
  have hfewer := h.fewer hblocked
  have hle : (good bad items).length ≤ items.length := List.length_filter_le _ _
  have hnone : good bad rest = [] := List.eq_nil_of_length_eq_zero (by omega)
  rw [← h.filter_bad]
  refine (List.filter_eq_self.mpr fun a ha => ?_).symm
  cases hbad : bad a with
  | true => rfl
  | false =>
      have hmem : a ∈ good bad rest := mem_good.mpr ⟨ha, hbad⟩
      rw [hnone] at hmem
      exact absurd hmem List.not_mem_nil

/-- An item that is gone was in a batch. -/
theorem mem_batch (h : Rounds age bad limit items batches rest) (ha : a ∈ items)
    (hgone : a ∉ rest) : ∃ batch ∈ batches, a ∈ batch := by
  induction h with
  | nil items => exact absurd ha hgone
  | @cons items batch rest batches hbatch tail ih =>
      by_cases hbatch : a ∈ batch
      · exact ⟨batch, List.mem_cons_self, hbatch⟩
      · obtain ⟨batch', hbatch', hmem⟩ := ih (mem_kept.mpr ⟨ha, .inr hbatch⟩) hgone
        exact ⟨batch', List.mem_cons_of_mem _ hbatch', hmem⟩

end Rounds

/-! ### Batches that do not -/

omit [DecidableEq α] in
/-- In a sorted list with `limit` items up to an age, the first `limit` are up to that age. -/
theorem age_le_of_mem_take {items : List α} {x : κ} {b : α}
    (hsorted : items.Pairwise fun a b => age a ≤ age b)
    (hcount : limit ≤ (items.filter fun a => age a ≤ x).length) (hb : b ∈ items.take limit) :
    age b ≤ x := by
  by_contra hlater
  rw [← List.take_append_drop limit items, List.pairwise_append] at hsorted
  have hnone : (items.drop limit).filter (fun a => age a ≤ x) = [] := by
    refine List.filter_eq_nil_iff.mpr fun a ha hle => hlater ?_
    exact (hsorted.2.2 b hb a ha).trans (decide_eq_true_eq.mp hle)
  have hshort : ((items.take limit).filter fun a => age a ≤ x).length <
      (items.take limit).length :=
    List.length_filter_lt_length_iff_exists.mpr ⟨b, hb, by simpa using hlater⟩
  rw [← List.take_append_drop limit items, List.filter_append, hnone, List.append_nil] at hcount
  have htake := List.length_take_le limit items
  omega

/-- The first of some sorted items are a batch when no other item is older than they are. -/
theorem IsBatch.take {sorted : List α} (hnodup : sorted.Nodup)
    (hsorted : sorted.Pairwise fun a b => age a ≤ age b) (hmem : ∀ b ∈ sorted, b ∈ items)
    (hlength : min limit sorted.length = min limit items.length)
    (hothers : ∀ c ∈ items, c ∉ sorted → ∀ b ∈ sorted.take limit, age b ≤ age c) :
    IsBatch age limit items (sorted.take limit) where
  mem b hb := hmem b (List.mem_of_mem_take hb)
  nodup := hnodup.sublist (List.take_sublist _ _)
  sorted := hsorted.sublist (List.take_sublist _ _)
  length := by rw [List.length_take, hlength]
  oldest c hc hnot b hb := by
    by_cases hmem : c ∈ sorted
    · -- What is not taken stands behind what is.
      rw [← List.take_append_drop limit sorted, List.mem_append] at hmem
      rw [← List.take_append_drop limit sorted, List.pairwise_append] at hsorted
      exact hsorted.2.2 b hb c (hmem.resolve_left hnot)
    · exact hothers c hc hmem b hb

omit [DecidableEq α] in
variable (age) in
theorem exists_sorted (items : List α) :
    ∃ sorted : List α, sorted.Perm items ∧ sorted.Pairwise fun a b => age a ≤ age b := by
  have : Std.Total fun a b : α => age a ≤ age b := ⟨fun a b => le_total (age a) (age b)⟩
  have : IsTrans α fun a b : α => age a ≤ age b := ⟨fun a b c => le_trans⟩
  exact ⟨items.insertionSort fun a b => age a ≤ age b, List.perm_insertionSort _ _,
    List.pairwise_insertionSort _ _⟩

variable (age limit) in
theorem IsBatch.exists (hnodup : items.Nodup) : ∃ batch, IsBatch age limit items batch := by
  obtain ⟨sorted, hperm, hsorted⟩ := exists_sorted age items
  exact ⟨_, .take (hperm.nodup_iff.mpr hnodup) hsorted (fun b hb => hperm.mem_iff.mp hb)
    (by rw [hperm.length_eq]) fun c hc hnot => absurd (hperm.mem_iff.mpr hc) hnot⟩

/-- An item with `limit` others up to its age can be passed over. -/
theorem IsBatch.exists_without (hnodup : items.Nodup) (ha : a ∈ items)
    (hcount : limit ≤ ((items.erase a).filter fun b => age b ≤ age a).length) :
    ∃ batch, IsBatch age limit items batch ∧ a ∉ batch := by
  obtain ⟨others, hperm, hsorted⟩ := exists_sorted age (items.erase a)
  have hmem {b : α} : b ∈ others ↔ b ≠ a ∧ b ∈ items :=
    hperm.mem_iff.trans hnodup.mem_erase_iff
  rw [← (hperm.filter _).length_eq] at hcount
  have hlength : limit ≤ others.length := hcount.trans (List.length_filter_le _ _)
  have herase := List.length_erase_of_mem ha
  have heq := hperm.length_eq
  refine ⟨_, .take (hperm.nodup_iff.mpr (hnodup.erase a)) hsorted
    (fun b hb => (hmem.mp hb).2) (by omega) fun c hc hnot b hb => ?_,
    fun hb => (hmem.mp (List.mem_of_mem_take hb)).1 rfl⟩
  obtain rfl : c = a := by
    by_contra hne
    exact hnot (hmem.mpr ⟨hne, hc⟩)
  exact age_le_of_mem_take hsorted hcount hb

variable (age bad limit) in
theorem Rounds.exists (hnodup : items.Nodup) (n : ℕ) :
    ∃ batches rest, Rounds age bad limit items batches rest ∧ batches.length = n := by
  induction n generalizing items with
  | zero => exact ⟨[], items, .nil items, rfl⟩
  | succ n ih =>
      obtain ⟨batch, hbatch⟩ := IsBatch.exists age limit hnodup
      obtain ⟨batches, rest, hrounds, hn⟩ := ih (nodup_kept hnodup)
      exact ⟨batch :: batches, rest, .cons hbatch hrounds, by rw [List.length_cons, hn]⟩

/-- A good item that is blocked may be left after any number of rounds. -/
theorem Rounds.exists_starved (hnodup : items.Nodup) (ha : a ∈ items) (hgood : bad a = false)
    (hblocked : limit ≤ (ahead age bad items a).length) (n : ℕ) :
    ∃ batches rest, Rounds age bad limit items batches rest ∧ batches.length = n ∧ a ∈ rest := by
  induction n generalizing items with
  | zero => exact ⟨[], items, .nil items, rfl, ha⟩
  | succ n ih =>
      have hcount : limit ≤ ((items.erase a).filter fun b => age b ≤ age a).length := by
        refine hblocked.trans (List.subperm_of_subset (hnodup.filter _) fun b hb => ?_).length_le
        obtain ⟨hb, hahead⟩ := List.mem_filter.mp hb
        obtain ⟨hbad, hle⟩ := decide_eq_true_eq.mp hahead
        refine List.mem_filter.mpr ⟨hnodup.mem_erase_iff.mpr ⟨?_, hb⟩, decide_eq_true hle⟩
        rintro rfl
        exact absurd (hgood.symm.trans hbad) (by simp)
      obtain ⟨batch, hbatch, hnot⟩ := IsBatch.exists_without hnodup ha hcount
      obtain ⟨batches, rest, hrounds, hn, hrest⟩ := ih (nodup_kept hnodup)
        (mem_kept.mpr ⟨ha, .inr hnot⟩) (by rwa [ahead_kept])
      exact ⟨batch :: batches, rest, .cons hbatch hrounds, by rw [List.length_cons, hn], hrest⟩

end Kept

end PureplayIngest.Lib.BoundedBatches
