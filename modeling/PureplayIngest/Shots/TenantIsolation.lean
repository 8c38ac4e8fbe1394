import PureplayIngest.Shots.ShotsService
import PureplayIngest.Webhooks.Parsed

/-!
Whose shots a listing returns. The condition on the user is dropped when the
user's id is empty, and the listing is then one of everybody's shots.
-/

namespace PureplayIngest.Shots

open Shared Shared.Domain Lib Webhooks

section

variable {κ : Type} [LinearOrder κ] {pg : Postgres κ} {parseDate : String → Option ℤ} {now : ℤ}
  {shots : List StoredShot} {filter : ShotsFilter} {query : ShotsQuery} {page : ShotsPage}

/-- A returned shot meets the conditions on user and vendor that were given. -/
theorem executeQuery_mem (hpg : pg.Documented)
    (h : executeQuery pg parseDate now shots filter query = .ok page) {shot : ShotWithoutPayload}
    (hshot : shot ∈ page.data) :
    (∀ c ∈ given filter.canonical_user_id, shot.canonical_user_id = some c) ∧
      (∀ v ∈ filter.vendor, shot.vendor = v) ∧
      ∀ u ∈ given filter.vendor_user_id, shot.vendor_user_id = u := by
  obtain ⟨select, rows, hselect, hrun, rfl⟩ := executeQuery_eq_ok.mp h
  obtain ⟨nowIso, since, until_, cursor, _, _, _, _, _, rfl⟩ := buildSelect_eq_ok.mp hselect
  obtain ⟨since', until', c, u, bound, limit, _, _, hc, hu, _, _, rfl⟩ := run_eq_some.mp hrun
  obtain ⟨row, hrow, rfl⟩ := mem_respond hshot
  have hmatches := (List.mem_filter.mp (Keyset.mem_behind.mp (Keyset.mem_behind_of_page hrow)).1).2
  obtain ⟨_, _, huser, hvendor, hvendorUser, _⟩ := of_decide_eq_true hmatches
  refine ⟨fun c' hc' => ?_, hvendor, fun u' hu' => ?_⟩
  · exact huser c' (boundString_eq hpg hc ▸ hc')
  · exact hvendorUser u' (boundString_eq hpg hu ▸ hu')

/-! ### The listing that leaves the user out -/

/-- A shot of the last month. -/
def recentShot (vendor : Vendor) (canonicalUserId : String) : StoredShot where
  toNormalisedShot :=
    { driveShot driveSha256 firstId firstDrive 1710498601000 with
      vendor := vendor, canonical_user_id := some canonicalUserId }
  microseconds := ⟨0, by decide⟩

def recently : ℤ := 1710498645000

/-- A request without any parameter. -/
def plainQuery : ShotsQuery := ⟨none, none, none, none, none, none⟩

/-- The query of such a request. -/
def plainSelect (filter : ShotsFilter) : Select where
  since := 1707906645000
  until_ := recently
  canonical_user_id := given filter.canonical_user_id
  vendor := filter.vendor
  vendor_user_id := given filter.vendor_user_id
  club := none
  onlyOriginals := true
  cursor := none
  limit := .finite defaultLimit

theorem buildSelect_plain (parseDate : String → Option ℤ) (filter : ShotsFilter) :
    buildSelect parseDate recently filter plainQuery = .ok (plainSelect filter) := by
  have hstart : recently - defaultWindowDays * 86400 * 1000 = 1707906645000 := by decide
  have hwindow : windowStart parseDate recently plainQuery = .ok 1707906645000 := by
    show isoOf (recently - defaultWindowDays * 86400 * 1000) = _
    rw [hstart]
    exact isoOf_eq_ok.mpr ⟨by decide, rfl⟩
  exact buildSelect_eq_ok.mpr ⟨recently, 1707906645000, recently, none,
    isoOf_eq_ok.mpr ⟨by decide, rfl⟩, hwindow, rfl, rfl, rfl, rfl⟩

/-- A request that names neither user nor vendor user lists that shot. -/
theorem executeQuery_recentShot (hpg : pg.Documented) (parseDate : String → Option ℤ)
    (vendor : Vendor) (canonicalUserId : String) (filter : ShotsFilter)
    (huser : given filter.canonical_user_id = none)
    (hvendorUser : given filter.vendor_user_id = none) (hvendor : ∀ v ∈ filter.vendor, vendor = v) :
    ∃ page,
      executeQuery pg parseDate recently [recentShot vendor canonicalUserId] filter plainQuery =
      .ok page ∧ page.data = [(recentShot vendor canonicalUserId).toResponse] := by
  have hread (t : ℤ) (h : minTimestamp ≤ t ∧ t ≤ maxTimestamp)
      (h' : -maxTimeValue ≤ t ∧ t ≤ maxTimeValue) :
      pg.timestamptz (.str (isoString t)) = some (t * 1000) :=
    (hpg.timestamptz_iso t h').trans (if_pos h)
  have hcaptured : (recentShot vendor canonicalUserId).capturedAt = 1710498600000000 := rfl
  have hmatches : Matches (plainSelect filter) (1707906645000 * 1000) (recently * 1000) none none
      (recentShot vendor canonicalUserId) := by
    refine ⟨?_, ?_, by simp, hvendor, by simp, by simp [plainSelect], fun _ => rfl⟩ <;>
    · rw [hcaptured]
      decide
  have hrun : (plainSelect filter).run pg [recentShot vendor canonicalUserId] =
      some [recentShot vendor canonicalUserId] := by
    have hlimit : limitClause (.finite defaultLimit) = some 51 := by
      norm_num [limitClause, defaultLimit]
      rfl
    refine run_eq_some.mpr ⟨1707906645000 * 1000, recently * 1000, none, none, none, 51,
      hread 1707906645000 (by decide) (by decide), hread recently (by decide) (by decide), ?_, ?_,
      rfl, hlimit, ?_⟩
    · rw [plainSelect, huser]
      rfl
    · rw [plainSelect, hvendorUser]
      rfl
    · rw [List.filter_eq_self.mpr fun row hrow =>
        decide_eq_true (List.mem_singleton.mp hrow ▸ hmatches)]
      rfl
  exact ⟨_, executeQuery_eq_ok.mpr ⟨_, _, buildSelect_plain parseDate filter, hrun, rfl⟩, rfl⟩

/-! ### Tenant isolation -/

variable (pg parseDate) in
/-- Listings of a user return shots of that user only. -/
def UserIsolated (userId : String) : Prop :=
  ∀ now shots query page, listByCanonicalUser pg parseDate now shots userId query = .ok page →
    ∀ shot ∈ page.data, shot.canonical_user_id = some userId

variable (pg parseDate) in
/-- Listings of a vendor's user return shots of that vendor and of that user only. -/
def VendorUserIsolated (vendor vendorUserId : String) : Prop :=
  ∀ now shots query page,
    listByVendorUser pg parseDate now shots vendor vendorUserId query = .ok page →
      ∀ shot ∈ page.data, shot.vendor.toString = vendor ∧ shot.vendor_user_id = vendorUserId

theorem userIsolated_iff (hpg : pg.Documented) (parseDate : String → Option ℤ) (userId : String) :
    UserIsolated pg parseDate userId ↔ userId ≠ "" := by
  constructor
  · rintro h rfl
    obtain ⟨page, hpage, hdata⟩ := executeQuery_recentShot hpg parseDate .trackpro "golfer-1"
      { canonical_user_id := some "", vendor := none, vendor_user_id := none } rfl rfl (by simp)
    have hshot := h recently [recentShot .trackpro "golfer-1"] plainQuery page hpage
      (recentShot .trackpro "golfer-1").toResponse (by rw [hdata]; exact List.mem_singleton_self _)
    exact absurd (Option.some.inj hshot) (by decide)
  · intro hne now shots query page hpage shot hshot
    exact (executeQuery_mem hpg hpage hshot).1 userId (given_some hne)

theorem vendorUserIsolated_iff (hpg : pg.Documented) (parseDate : String → Option ℤ)
    (vendor vendorUserId : String) :
    VendorUserIsolated pg parseDate vendor vendorUserId ↔
      vendorUserId ≠ "" ∨ Vendor.ofString? vendor = none := by
  cases hvendor : Vendor.ofString? vendor with
  | none =>
      refine ⟨fun _ => .inr rfl, fun _ now shots query page hpage => ?_⟩
      rw [listByVendorUser, hvendor] at hpage
      exact absurd hpage (by simp)
  | some v =>
      have hname : v.toString = vendor := by simpa using List.find?_some hvendor
      simp only [reduceCtorEq, or_false]
      constructor
      · rintro h rfl
        obtain ⟨page, hpage, hdata⟩ := executeQuery_recentShot hpg parseDate v "golfer-1"
          { canonical_user_id := none, vendor := some v, vendor_user_id := some "" } rfl rfl
          fun v' hv' => Option.some.inj hv'
        have hlisted : listByVendorUser pg parseDate recently [recentShot v "golfer-1"] vendor ""
            plainQuery = .ok page := by
          rw [listByVendorUser, hvendor]
          exact hpage
        have hshot := h _ _ _ page hlisted (recentShot v "golfer-1").toResponse
          (by rw [hdata]; exact List.mem_singleton_self _)
        exact absurd hshot.2 (show "demo-player-1" ≠ "" by decide)
      · intro hne now shots query page hpage shot hshot
        rw [listByVendorUser, hvendor] at hpage
        obtain ⟨_, hv, hu⟩ := executeQuery_mem hpg hpage hshot
        exact ⟨(congrArg Vendor.toString (hv v rfl)).trans hname, hu _ (given_some hne)⟩

end

/-- A listing is isolated when the id it is asked for is not empty, and only
then: an empty user id lists everybody's shots, an empty vendor user id all
shots of the vendor. -/
theorem listings_isolated_iff {κ : Type} [LinearOrder κ] {pg : Postgres κ} (hpg : pg.Documented)
    (parseDate : String → Option ℤ) :
    (∀ userId, UserIsolated pg parseDate userId ↔ userId ≠ "") ∧
      ∀ vendor vendorUserId, VendorUserIsolated pg parseDate vendor vendorUserId ↔
        vendorUserId ≠ "" ∨ Vendor.ofString? vendor = none :=
  ⟨userIsolated_iff hpg parseDate, vendorUserIsolated_iff hpg parseDate⟩

theorem listings_isolated_iff_ofStrings :
    (∀ userId, UserIsolated Postgres.ofStrings (fun _ => none) userId ↔ userId ≠ "") ∧
      ∀ vendor vendorUserId,
        VendorUserIsolated Postgres.ofStrings (fun _ => none) vendor vendorUserId ↔
          vendorUserId ≠ "" ∨ Vendor.ofString? vendor = none :=
  listings_isolated_iff Postgres.documented_ofStrings fun _ => none

/-- The listing of the user with the empty id returns another user's shot. -/
theorem empty_user_lists_others : ∃ page,
    listByCanonicalUser Postgres.ofStrings (fun _ => none) recently
      [recentShot .trackpro "golfer-1"] "" plainQuery = .ok page ∧
      ∃ shot ∈ page.data, shot.canonical_user_id = some "golfer-1" := by
  obtain ⟨page, hpage, hdata⟩ := executeQuery_recentShot Postgres.documented_ofStrings
    (fun _ => none) .trackpro "golfer-1"
    { canonical_user_id := some "", vendor := none, vendor_user_id := none } rfl rfl (by simp)
  exact ⟨page, hpage, _, hdata ▸ List.mem_singleton_self _, rfl⟩

end PureplayIngest.Shots
