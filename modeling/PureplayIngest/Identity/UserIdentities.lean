import PureplayIngest.Identity.IdentityService
import PureplayIngest.Lib.Joined

/-!
What the statements do to `user_identities`, read through the two questions
that are asked of the table, and the keys of the caches that answer them.
-/

namespace PureplayIngest.Identity

open Shared.Domain Shared.Kysely

/-- The unique constraint on `(vendor, vendor_user_id)`. -/
def UniquePairs (db : Database) : Prop := (db.user_identities.map pairOf).Nodup

/-- No pair is mapped to the empty string, which the resolve cache could not
tell from no mapping. -/
def NonEmptyUsers (db : Database) : Prop := ∀ pair, mapping db pair ≠ some ""

/-! ### Keys -/

theorem identityCacheKey_toList (pair : Vendor × String) :
    (identityCacheKey pair.1 pair.2).toList =
      "identity:".toList ++ (pair.1.toString.toList ++ ':' :: pair.2.toList) := by
  simp only [identityCacheKey, String.toList_append, List.append_assoc]
  rfl

theorem Vendor.colon_not_mem (vendor : Vendor) : ':' ∉ vendor.toString.toList := by
  cases vendor <;> decide

theorem Vendor.toString_injective : Function.Injective Vendor.toString := by
  intro vendor vendor' h
  revert h
  cases vendor <;> cases vendor' <;> decide

theorem identityCacheKey_inj {pair pair' : Vendor × String} :
    identityCacheKey pair.1 pair.2 = identityCacheKey pair'.1 pair'.2 ↔ pair = pair' := by
  constructor
  · intro h
    rw [← String.toList_inj, identityCacheKey_toList, identityCacheKey_toList,
      List.append_right_inj] at h
    obtain ⟨hvendor, huser⟩ :=
      Lib.cut_first (Vendor.colon_not_mem _) (Vendor.colon_not_mem _) h
    exact Prod.ext (Vendor.toString_injective (String.toList_inj.mp hvendor))
      (String.toList_inj.mp huser)
  · rintro rfl
    rfl

theorem listKey_ne_identityKey (canonicalUserId : String) (pair : Vendor × String) :
    identityListCacheKey canonicalUserId ≠ identityCacheKey pair.1 pair.2 := by
  intro h
  have hlist : (identityListCacheKey canonicalUserId).toList.take 9 = "identity-".toList := by
    rw [identityListCacheKey, String.toList_append]
    rfl
  have hpair : (identityCacheKey pair.1 pair.2).toList.take 9 = "identity:".toList := by
    rw [identityCacheKey_toList]
    rfl
  rw [h, hpair] at hlist
  exact absurd hlist (by decide)

theorem identityListCacheKey_inj {c c' : String} :
    identityListCacheKey c = identityListCacheKey c' ↔ c = c' := by
  constructor
  · intro h
    rw [← String.toList_inj, identityListCacheKey, identityListCacheKey, String.toList_append,
      String.toList_append, List.append_right_inj] at h
    exact String.toList_inj.mp h
  · rintro rfl
    rfl

/-! ### Link -/

theorem mapping_eq_none_iff {db : Database} {pair : Vendor × String} :
    mapping db pair = none ↔ pair ∉ db.user_identities.map pairOf := by
  simp only [mapping, Option.map_eq_none_iff, List.find?_eq_none, List.mem_map, not_exists, not_and,
    decide_eq_true_eq]

section

variable {rows : List VendorIdentity} {pair pair' : Vendor × String} {row : VendorIdentity}

/-- Replacing the rows of a pair leaves the lookup of every other pair. -/
theorem find?_map_of_ne (hrow : pairOf row = pair) (h : pair' ≠ pair) :
    (rows.map fun r => if pairOf r = pair then row else r).find? (fun r => pairOf r = pair') =
      rows.find? fun r => pairOf r = pair' := by
  induction rows with
  | nil => rfl
  | cons r rows ih =>
      rw [List.map_cons, List.find?_cons, List.find?_cons, ih]
      by_cases hr : pairOf r = pair
      · simp [hr, hrow, h.symm]
      · simp [hr]

theorem find?_map_self (hrow : pairOf row = pair) (h : ∃ r ∈ rows, pairOf r = pair) :
    (rows.map fun r => if pairOf r = pair then row else r).find? (fun r => pairOf r = pair) =
      some row := by
  induction rows with
  | nil => simp at h
  | cons r rows ih =>
      rw [List.map_cons, List.find?_cons]
      by_cases hr : pairOf r = pair
      · simp [hr, hrow]
      · obtain ⟨r', hmem, hr'⟩ := h
        rcases List.mem_cons.mp hmem with rfl | hmem
        · exact absurd hr' hr
        · simp only [hr, if_false, decide_false]
          exact ih ⟨r', hmem, hr'⟩

/-- Replacing rows of a pair by one of the same pair changes no pair. -/
theorem map_pairOf_update (hrow : pairOf row = pair) :
    (rows.map fun r => if pairOf r = pair then row else r).map pairOf = rows.map pairOf := by
  rw [List.map_map]
  refine List.map_congr_left fun r _ => ?_
  show pairOf (if pairOf r = pair then row else r) = pairOf r
  split
  · rename_i hr
    rw [hrow, hr]
  · rfl

theorem filter_update_of_ne {c : String} (hrow : row.canonical_user_id ≠ c)
    (h : ∀ r ∈ rows, pairOf r = pair → r.canonical_user_id ≠ c) :
    (rows.map fun r => if pairOf r = pair then row else r).filter
        (fun r => r.canonical_user_id = c) = rows.filter fun r => r.canonical_user_id = c := by
  induction rows with
  | nil => rfl
  | cons r rows ih =>
      rw [List.map_cons, List.filter_cons, List.filter_cons,
        ih fun r' hr' => h r' (List.mem_cons_of_mem _ hr')]
      by_cases hr : pairOf r = pair
      · have hc := h r List.mem_cons_self hr
        simp [hr, hrow, hc]
      · simp [hr]

end

variable {db db' : Database} {pair : Vendor × String} {c actor : String} {row : VendorIdentity}

/-- What a committed link leaves of the table: pairs, lookups and lists. -/
structure Linked (db db' : Database) (pair : Vendor × String) (c : String) : Prop where
  unique : UniquePairs db → UniquePairs db'
  mapping_self : mapping db' pair = some c
  mapping_other : ∀ pair', pair' ≠ pair → mapping db' pair' = mapping db pair'
  list_other : ∀ c', c' ≠ c → UniquePairs db → mapping db pair ≠ some c' →
    identitiesOf db' c' = identitiesOf db c'

/-- A row of a pair is the one the lookup finds. -/
theorem mapping_of_mem (hunique : UniquePairs db) {r : VendorIdentity}
    (hmem : r ∈ db.user_identities) : mapping db (pairOf r) = some r.canonical_user_id := by
  unfold UniquePairs at hunique
  unfold mapping
  generalize db.user_identities = rows at hunique hmem ⊢
  induction rows with
  | nil => simp at hmem
  | cons r' rows ih =>
      rw [List.map_cons, List.nodup_cons] at hunique
      rw [List.find?_cons]
      rcases List.mem_cons.mp hmem with rfl | hmem
      · simp
      · have hne : pairOf r' ≠ pairOf r := fun h => hunique.1 (h ▸ List.mem_map_of_mem hmem)
        simp only [hne, decide_false]
        exact ih hunique.2 hmem

theorem upsertIdentity_linked (db : Database) (pair : Vendor × String) (c : String) :
    Linked db (upsertIdentity db pair c).1 pair c := by
  unfold upsertIdentity
  cases hfind : db.user_identities.find? fun row => pairOf row = pair with
  | some existing =>
      have hpair : pairOf existing = pair := by simpa using List.find?_some hfind
      -- The row keeps its pair and its place.
      have hrow : pairOf { existing with canonical_user_id := c, updated_at := db.now } = pair :=
        hpair
      have hex : ∃ r ∈ db.user_identities, pairOf r = pair :=
        ⟨existing, List.mem_of_find?_eq_some hfind, hpair⟩
      constructor
      · intro hunique
        simp only [UniquePairs]
        rw [map_pairOf_update hrow]
        exact hunique
      · simp only [mapping]
        rw [find?_map_self hrow hex]
        rfl
      · intro pair' hne
        exact congrArg _ (find?_map_of_ne hrow hne)
      · intro c' hne hunique hmapping
        refine filter_update_of_ne hne.symm fun r hr hrpair => ?_
        rintro rfl
        exact hmapping (hrpair ▸ mapping_of_mem hunique hr)
  | none =>
      have hnotin : ∀ r ∈ db.user_identities, pairOf r ≠ pair := by
        simpa using List.find?_eq_none.mp hfind
      constructor
      · intro hunique
        simp only [UniquePairs, List.map_append, List.nodup_append]
        refine ⟨hunique, by simp, ?_⟩
        rintro p hp q hq rfl
        obtain ⟨r, hr, rfl⟩ := List.mem_map.mp hp
        exact hnotin r hr (List.mem_singleton.mp hq)
      · simp only [mapping, List.find?_append, hfind]
        simp [pairOf]
      · intro pair' hne
        simp only [mapping, List.find?_append]
        cases db.user_identities.find? fun row => pairOf row = pair' with
        | some r => rfl
        | none => simp [pairOf, hne.symm]
      · intro c' hne _ _
        simp [identitiesOf, hne.symm]

theorem linkTransaction_linked (h : linkTransaction db pair c actor = some (db', row)) :
    Linked db db' pair c := by
  unfold linkTransaction at h
  split at h
  · obtain ⟨rfl, _⟩ := Prod.mk.inj (Option.some.inj h)
    obtain ⟨hunique, hself, hother, hlist⟩ := upsertIdentity_linked db pair c
    exact ⟨hunique, hself, hother, hlist⟩
  · exact absurd h (by simp)

/-! ### Unlink -/

/-- What a committed unlink leaves of the table. -/
structure Unlinked (db db' : Database) (pair : Vendor × String) (c : String) : Prop where
  unique : UniquePairs db'
  mapping_before : mapping db pair = some c
  mapping_self : mapping db' pair = none
  mapping_other : ∀ pair', pair' ≠ pair → mapping db' pair' = mapping db pair'
  list_other : ∀ c', c' ≠ c → identitiesOf db' c' = identitiesOf db c'

theorem find?_filter_of_imp {rows : List VendorIdentity} {p q : VendorIdentity → Bool}
    (h : ∀ r ∈ rows, p r → q r) : (rows.filter q).find? p = rows.find? p := by
  induction rows with
  | nil => rfl
  | cons r rows ih =>
      have hrows := ih fun r' hr' => h r' (List.mem_cons_of_mem _ hr')
      rw [List.filter_cons, List.find?_cons]
      cases hq : q r with
      | true => simp [List.find?_cons, hrows]
      | false =>
          have hp : p r = false := by
            cases hp : p r with
            | false => rfl
            | true => simp [h r List.mem_cons_self hp] at hq
          simp [hp, hrows]

theorem unlinkTransaction_unlinked (hunique : UniquePairs db)
    (h : unlinkTransaction db pair c actor = some db') : Unlinked db db' pair c := by
  simp only [unlinkTransaction] at h
  split at h
  case isFalse => exact absurd h (by simp)
  case isTrue hany =>
    obtain rfl := Option.some.inj h
    obtain ⟨r, hr, hlinked⟩ := List.any_eq_true.mp hany
    obtain ⟨rfl, rfl⟩ : pairOf r = pair ∧ r.canonical_user_id = c := by simpa using hlinked
    have hself := mapping_of_mem hunique hr
    constructor
    · exact List.Nodup.sublist (List.filter_sublist.map _) hunique
    · exact hself
    · refine mapping_eq_none_iff.mpr fun hmem => ?_
      obtain ⟨r', hr', hpair⟩ := List.mem_map.mp hmem
      obtain ⟨hr', hnot⟩ := List.mem_filter.mp hr'
      -- The one row of the pair is the row that was deleted.
      have hother := mapping_of_mem hunique hr'
      rw [hpair, hself] at hother
      simp [hpair, Option.some.inj hother] at hnot
    · intro pair' hne
      simp only [mapping, recordAudit]
      rw [find?_filter_of_imp]
      intro r' _ hp
      obtain rfl : pairOf r' = pair' := by simpa using hp
      simp [hne]
    · intro c' hne
      simp only [identitiesOf, recordAudit, List.filter_filter]
      refine List.filter_congr fun r' _ => ?_
      by_cases hc : r'.canonical_user_id = c'
      · simp [hc, hne]
      · simp [hc]

end PureplayIngest.Identity
