import Mathlib.Data.List.Nodup

/-!
Lists of entries with distinct keys, as a store keeps them.

An entry is added only when its key is free, and changed or removed by its
key. The keys are distinct by construction, so an entry is determined by its
key and nothing about the order of the operations has to be assumed.
-/

namespace PureplayIngest.Lib

structure Keyed {α κ : Type*} (key : α → κ) where
  entries : List α
  nodup : (entries.map key).Nodup

namespace Keyed

variable {α κ : Type*} {key : α → κ} {t : Keyed key} {a b : α} {k : κ}

def empty : Keyed key := ⟨[], List.nodup_nil⟩

/-- There is an entry with this key. -/
def Known (t : Keyed key) (k : κ) : Prop := ∃ a ∈ t.entries, key a = k

theorem mem_map_iff_known : k ∈ t.entries.map key ↔ t.Known k := List.mem_map

theorem eq_of_key (ha : a ∈ t.entries) (hb : b ∈ t.entries) (h : key a = key b) : a = b :=
  List.inj_on_of_nodup_map t.nodup ha hb h

variable [DecidableEq κ]

instance (t : Keyed key) (k : κ) : Decidable (t.Known k) :=
  inferInstanceAs (Decidable (∃ a ∈ t.entries, key a = k))

def find (t : Keyed key) (k : κ) : Option α := t.entries.find? (key · = k)

/-- An entry whose key is taken is not added. -/
def add (t : Keyed key) (a : α) : Keyed key :=
  if h : t.Known (key a) then t
  else
    { entries := t.entries ++ [a]
      nodup := by
        rw [List.map_append, List.map_singleton, List.nodup_append]
        refine ⟨t.nodup, List.nodup_singleton _, fun x hx y hy heq => h ?_⟩
        obtain rfl := List.mem_singleton.mp hy
        exact mem_map_iff_known.mp (heq ▸ hx) }

def modify (t : Keyed key) (k : κ) (f : α → α) (hf : ∀ a, key (f a) = key a) : Keyed key where
  entries := t.entries.map fun a => if key a = k then f a else a
  nodup := by
    rw [List.map_map]
    convert t.nodup using 2
    funext a
    show key (if key a = k then f a else a) = key a
    split
    · exact hf a
    · rfl

def remove (t : Keyed key) (k : κ) : Keyed key where
  entries := t.entries.filter (key · ≠ k)
  nodup := t.nodup.sublist (List.filter_sublist.map key)

theorem mem_of_find (h : t.find k = some a) : a ∈ t.entries ∧ key a = k :=
  ⟨List.mem_of_find?_eq_some h, by simpa using List.find?_some h⟩

theorem find_of_mem (h : a ∈ t.entries) : t.find (key a) = some a := by
  cases hfind : t.find (key a) with
  | none =>
      rw [find, List.find?_eq_none] at hfind
      exact absurd (decide_eq_true rfl) (hfind a h)
  | some b =>
      obtain ⟨hb, hkey⟩ := mem_of_find hfind
      rw [eq_of_key hb h hkey]

theorem add_of_known (h : t.Known (key a)) : t.add a = t := dif_pos h

theorem mem_add : b ∈ (t.add a).entries ↔ b ∈ t.entries ∨ b = a ∧ ¬ t.Known (key a) := by
  rw [add]
  split
  · rename_i h
    exact ⟨.inl, fun hb => hb.resolve_right fun hnew => hnew.2 h⟩
  · rename_i h
    rw [List.mem_append, List.mem_singleton, and_iff_left h]

theorem known_add : (t.add a).Known k ↔ t.Known k ∨ k = key a := by
  constructor
  · rintro ⟨b, hb, rfl⟩
    obtain hb | ⟨rfl, _⟩ := mem_add.mp hb
    · exact .inl ⟨b, hb, rfl⟩
    · exact .inr rfl
  · rintro (⟨b, hb, rfl⟩ | rfl)
    · exact ⟨b, mem_add.mpr (.inl hb), rfl⟩
    · by_cases h : t.Known (key a)
      · rwa [add_of_known h]
      · exact ⟨a, mem_add.mpr (.inr ⟨rfl, h⟩), rfl⟩

/-- The entries stay as they are. -/
theorem mem_foldl_add {as : List α} (h : b ∈ t.entries) : b ∈ (as.foldl add t).entries := by
  induction as generalizing t with
  | nil => exact h
  | cons a as ih => exact ih (mem_add.mpr (.inl h))

theorem known_foldl_add {as : List α} :
    (as.foldl add t).Known k ↔ t.Known k ∨ ∃ a ∈ as, key a = k := by
  induction as generalizing t with
  | nil => simp only [List.foldl_nil, List.not_mem_nil, false_and, exists_false, or_false]
  | cons a as ih =>
      rw [List.foldl_cons, ih, known_add, List.exists_mem_cons_iff, or_assoc, eq_comm (a := k)]

theorem mem_modify {f : α → α} (hf : ∀ a, key (f a) = key a) :
    b ∈ (t.modify k f hf).entries ↔
      b ∈ t.entries ∧ key b ≠ k ∨ ∃ a ∈ t.entries, key a = k ∧ b = f a := by
  constructor
  · intro hb
    obtain ⟨a, ha, rfl⟩ := List.mem_map.mp hb
    by_cases h : key a = k
    · exact .inr ⟨a, ha, h, if_pos h⟩
    · rw [if_neg h]
      exact .inl ⟨ha, h⟩
  · rintro (⟨hb, h⟩ | ⟨a, ha, h, rfl⟩)
    · exact List.mem_map.mpr ⟨b, hb, if_neg h⟩
    · exact List.mem_map.mpr ⟨a, ha, if_pos h⟩

theorem known_modify {f : α → α} (hf : ∀ a, key (f a) = key a) {k' : κ} :
    (t.modify k f hf).Known k' ↔ t.Known k' := by
  constructor
  · rintro ⟨b, hb, rfl⟩
    obtain ⟨hb, _⟩ | ⟨a, ha, _, rfl⟩ := (mem_modify hf).mp hb
    · exact ⟨b, hb, rfl⟩
    · exact ⟨a, ha, (hf a).symm⟩
  · rintro ⟨a, ha, rfl⟩
    by_cases h : key a = k
    · exact ⟨f a, (mem_modify hf).mpr (.inr ⟨a, ha, h, rfl⟩), hf a⟩
    · exact ⟨a, (mem_modify hf).mpr (.inl ⟨ha, h⟩), rfl⟩

theorem mem_remove : b ∈ (t.remove k).entries ↔ b ∈ t.entries ∧ key b ≠ k := by
  rw [remove, List.mem_filter, decide_eq_true_eq]

theorem known_remove {k' : κ} (hne : k' ≠ k) : (t.remove k).Known k' ↔ t.Known k' := by
  constructor
  · rintro ⟨b, hb, rfl⟩
    exact ⟨b, (mem_remove.mp hb).1, rfl⟩
  · rintro ⟨b, hb, rfl⟩
    exact ⟨b, mem_remove.mpr ⟨hb, hne⟩, rfl⟩

/-! ### How many entries are of a kind -/

variable {p : α → Bool}

theorem countP_add (h : ¬ t.Known (key a)) :
    (t.add a).entries.countP p = t.entries.countP p + if p a = true then 1 else 0 := by
  rw [add, dif_neg h, List.countP_append, List.countP_singleton]

/-- A change that makes no entry one of the kind. -/
theorem countP_modify_le {f : α → α} (hf : ∀ a, key (f a) = key a)
    (h : ∀ a, p (f a) = true → p a = true) :
    (t.modify k f hf).entries.countP p ≤ t.entries.countP p := by
  rw [modify, List.countP_map]
  refine List.countP_mono_left fun a _ ha => ?_
  rw [Function.comp] at ha
  split at ha
  · exact h a ha
  · exact ha

/-- Whatever a change does, it is to one entry at most. -/
theorem countP_modify_le_succ {f : α → α} (hf : ∀ a, key (f a) = key a) :
    (t.modify k f hf).entries.countP p ≤ t.entries.countP p + 1 := by
  obtain ⟨entries, nodup⟩ := t
  show (entries.map fun a => if key a = k then f a else a).countP p ≤ entries.countP p + 1
  induction entries with
  | nil => exact Nat.zero_le _
  | cons a entries ih =>
      rw [List.map_cons, List.nodup_cons] at nodup
      have hih := ih nodup.2
      rw [List.map_cons, List.countP_cons, List.countP_cons]
      by_cases h : key a = k
      · -- No other entry has the key.
        have hrest : (entries.map fun b => if key b = k then f b else b) = entries := by
          refine (List.map_congr_left fun b hb => if_neg ?_).trans (List.map_id _)
          exact fun hk => nodup.1 (List.mem_map.mpr ⟨b, hb, hk.trans h.symm⟩)
        rw [hrest]
        split <;> split <;> omega
      · rw [if_neg h]
        omega

theorem countP_remove_le : (t.remove k).entries.countP p ≤ t.entries.countP p := by
  rw [remove]
  exact List.filter_sublist.countP_le

end Keyed

end PureplayIngest.Lib
