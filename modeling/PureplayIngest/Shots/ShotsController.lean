import PureplayIngest.Shared.JsString
import PureplayIngest.Shots.Pagination
import PureplayIngest.Shots.TenantIsolation

/-!
`ShotsController` and the limits it passes on.

A limit is read leniently from a text, and any integer goes on to the service.
There it is bounded from above only. A request for no shots is told that there
are more and where to go on is missing; so is one for -1, and every limit below
is an error of the database.
-/

namespace PureplayIngest.Shots

open Shared Shared.Domain Lib

/-- The query string of a listing. -/
structure ListParams where
  since : Option String
  until_ : Option String
  club : Option String
  cursor : Option String
  limit : Option String
  include_near_duplicates : Option String

/-- The query that both routes make of it. -/
def ListParams.toQuery (params : ListParams) : ShotsQuery :=
  { since := params.since, until_ := params.until_, club := params.club, cursor := params.cursor
    limit := params.limit.bind fun text => (parseInt text).map fun n : ℤ => .finite n
    include_near_duplicates := some (params.include_near_duplicates = some "true") }

section Routes

variable {κ : Type} [LinearOrder κ] (pg : Postgres κ) (parseDate : String → Option ℤ) (now : ℤ)
  (shots : List StoredShot)

def ShotsController.listByUser (userId : String) (params : ListParams) :
    Except ShotsError ShotsPage :=
  listByCanonicalUser pg parseDate now shots userId params.toQuery

def ShotsController.listByVendorUser (vendor vendorUserId : String) (params : ListParams) :
    Except ShotsError ShotsPage :=
  Shots.listByVendorUser pg parseDate now shots vendor vendorUserId params.toQuery

end Routes

/-! ### What the limit leaves -/

section Matching

variable {κ : Type} [LinearOrder κ] (pg : Postgres κ)

/-- The rows that meet the conditions and are behind the cursor; `none` when a
parameter is rejected. -/
def Select.matching (select : Select) (shots : List StoredShot) : Option (List StoredShot) := do
  let since ← pg.timestamptz (.str (isoString select.since))
  let until_ ← pg.timestamptz (.str (isoString select.until_))
  let canonical_user_id ← boundString pg select.canonical_user_id
  let vendor_user_id ← boundString pg select.vendor_user_id
  let cursor ← boundCursor pg select.cursor
  return Keyset.behind (orderKey pg) cursor (shots.filter fun row =>
    Matches select since until_ canonical_user_id vendor_user_id row)

variable {pg} {select : Select} {shots matching : List StoredShot}

/-- The rows of a query are the first of those that match. -/
theorem run_of_matching (h : select.matching pg shots = some matching) :
    select.run pg shots = (limitClause select.limit).map fun limit =>
      Keyset.page (orderKey pg) limit none matching := by
  simp only [Select.matching, Option.bind_eq_bind, Option.bind_eq_some_iff, Option.pure_def,
    Option.some.injEq] at h
  obtain ⟨since, hs, until_, hu, c, hc, v, hv, cursor, hcursor, rfl⟩ := h
  simp only [Select.run, hs, hu, hc, hv, hcursor, Option.bind_eq_bind, Option.bind_some,
    Option.pure_def, Keyset.page_none_behind]
  cases limitClause select.limit <;> rfl

end Matching

/-! ### The three fields of a page -/

/-- The fields of a page fit together, so that a client gets to the end. -/
structure Consistent (page : ShotsPage) : Prop where
  next_cursor : page.paging.has_more = true ↔ page.paging.next_cursor ≠ none
  progress : page.paging.has_more = true → page.data ≠ []
  bounded : page.data.length ≤ 100

theorem next_cursor_respond (query : ShotsQuery) (select : Select) (rows : List StoredShot) :
    (respond query select rows).paging.next_cursor ≠ none ↔
      (respond query select rows).paging.has_more = true ∧
        (respond query select rows).data ≠ [] := by
  cases hmore : exceeds rows.length select.limit with
  | false => simp [respond, hmore]
  | true => simp [respond, hmore]

/-- With more to come and nothing on the page a client does not get on. -/
theorem consistent_respond_iff {query : ShotsQuery} {select : Select} {rows : List StoredShot}
    (hlength : (respond query select rows).data.length ≤ 100) :
    Consistent (respond query select rows) ↔
      ((respond query select rows).paging.has_more = true →
        (respond query select rows).data ≠ []) := by
  constructor
  · exact Consistent.progress
  · intro hprogress
    refine ⟨?_, hprogress, hlength⟩
    rw [next_cursor_respond]
    exact ⟨fun hmore => ⟨hmore, hprogress hmore⟩, And.left⟩

/-! ### Every integer as the limit -/

theorem pageLimit_intCast (n : ℤ) : pageLimit (some (.finite n)) = .finite (min n 100 : ℤ) := by
  rw [pageLimit, Int.cast_min]
  rfl

theorem limitClause_intCast (n : ℤ) :
    limitClause (.finite n) = if 0 ≤ n + 1 then some (n + 1).toNat else none := by
  have hcast : (n : ℚ) + 1 = ((n + 1 : ℤ) : ℚ) := by push_cast; rfl
  rw [limitClause, hcast, Rat.den_intCast, Rat.num_intCast]
  simp only [true_and]

section Limits

variable {κ : Type} [LinearOrder κ] {pg : Postgres κ} {parseDate : String → Option ℤ} {now : ℤ}
  {shots matching : List StoredShot} {filter : ShotsFilter} {query : ShotsQuery} {select : Select}
  {k : ℕ} {n : ℤ}

/-- A page of `k` rows gets a client on, unless `k` is 0 and there are rows. -/
theorem consistent_page_iff (hlimit : select.limit = .finite k) (hk : k ≤ 100) :
    Consistent (respond query select (Keyset.page (orderKey pg) (k + 1) none matching)) ↔
      0 < k ∨ matching = [] := by
  have ha : Answers pg k none matching
      (respond query select (Keyset.page (orderKey pg) (k + 1) none matching)) :=
    answers_respond hlimit none matching
  have hlength : (respond query select
      (Keyset.page (orderKey pg) (k + 1) none matching)).data.length ≤ 100 := by
    rw [ha.data, List.length_map, Keyset.page, List.length_take]
    omega
  rw [consistent_respond_iff hlength, ha.has_more, ha.data, decide_eq_true_eq, ne_eq,
    List.map_eq_nil_iff]
  constructor
  · intro hprogress
    rcases Nat.eq_zero_or_pos k with rfl | hpos
    · rw [Keyset.behind_none] at hprogress
      have hnone := mt hprogress (not_not.mpr (by rw [Keyset.page, List.take_zero]))
      exact .inr (List.eq_nil_of_length_eq_zero (by omega))
    · exact .inl hpos
  · rintro (hpos | rfl) hmore
    · exact Keyset.page_ne_nil hpos hmore
    · exact absurd hmore (by rw [Keyset.behind_none]; simp)

/-- No row is read for -1, and still there are more. -/
theorem not_consistent_neg_one (hlimit : select.limit = .finite (-1 : ℤ)) :
    ¬ Consistent (respond query select []) := by
  have hmore : exceeds ([] : List StoredShot).length select.limit = true := by
    rw [hlimit]
    decide
  intro h
  obtain ⟨shot, hshot⟩ := List.exists_mem_of_ne_nil _ (h.progress hmore)
  obtain ⟨row, hrow, -⟩ := mem_respond hshot
  exact absurd hrow List.not_mem_nil

/-- The page of a request, from the rows that its query returns. -/
theorem exists_page_iff (hselect : buildSelect parseDate now filter query = .ok select)
    (P : ShotsPage → Prop) :
    (∃ page, executeQuery pg parseDate now shots filter query = .ok page ∧ P page) ↔
      ∃ rows, select.run pg shots = some rows ∧ P (respond query select rows) := by
  constructor
  · rintro ⟨page, hpage, hP⟩
    obtain ⟨select', rows, hselect', hrun, rfl⟩ := executeQuery_eq_ok.mp hpage
    obtain rfl := Except.ok.inj (hselect'.symm.trans hselect)
    exact ⟨rows, hrun, hP⟩
  · rintro ⟨rows, hrun, hP⟩
    exact ⟨_, executeQuery_eq_ok.mpr ⟨select, rows, hselect, hrun, rfl⟩, hP⟩

theorem consistent_limit_iff (hlimit : query.limit = some (.finite n))
    (hselect : buildSelect parseDate now filter query = .ok select)
    (hmatching : select.matching pg shots = some matching) :
    (∃ page, executeQuery pg parseDate now shots filter query = .ok page ∧ Consistent page) ↔
      0 < n ∨ n = 0 ∧ matching = [] := by
  have hread : select.limit = .finite (min n 100 : ℤ) := by
    obtain ⟨_, _, _, _, _, _, _, _, _, rfl⟩ := buildSelect_eq_ok.mp hselect
    show pageLimit query.limit = _
    rw [hlimit, pageLimit_intCast]
  rw [exists_page_iff hselect, run_of_matching hmatching, hread, limitClause_intCast]
  -- Below -1 the LIMIT is refused, at -1 it is zero and `slice` counts from the back.
  obtain hfail | hnone | hnonneg : n < -1 ∨ n = -1 ∨ 0 ≤ n := by omega
  · rw [if_neg (by omega), Option.map_none]
    constructor
    · rintro ⟨rows, hrows, -⟩
      exact absurd hrows (by simp)
    · omega
  · subst hnone
    have hempty : Keyset.page (orderKey pg) (min (-1 : ℤ) 100 + 1).toNat none matching = [] := by
      rw [Keyset.page]
      exact List.take_zero
    rw [if_pos (by decide), Option.map_some, hempty]
    constructor
    · rintro ⟨rows, hrows, hconsistent⟩
      obtain rfl := Option.some.inj hrows
      exact absurd hconsistent (not_consistent_neg_one hread)
    · omega
  · obtain ⟨k, hk⟩ := Int.eq_ofNat_of_zero_le (le_min hnonneg (by decide : (0 : ℤ) ≤ 100))
    have hlimit' : select.limit = .finite k := by
      rw [hread, hk]
      rfl
    have hsucc : (min n 100 + 1).toNat = k + 1 := by omega
    have hpos : 0 < k ↔ 0 < n := by omega
    rw [if_pos (by omega), Option.map_some, hsucc]
    simp only [Option.some.injEq, exists_eq_left']
    rw [consistent_page_iff hlimit' (by omega), hpos]
    constructor
    · rintro (h | h)
      · exact .inl h
      · exact hnonneg.lt_or_eq.imp id fun hzero => ⟨hzero.symm, h⟩
    · rintro (h | h)
      · exact .inl h
      · exact .inr h.2

end Limits

/-! ### The limits of the controller -/

section Controller

variable {κ : Type} [LinearOrder κ] {pg : Postgres κ} {parseDate : String → Option ℤ} {now : ℤ}
  {shots matching : List StoredShot} {filter : ShotsFilter} {params : ListParams} {select : Select}

/--
A request whose other parameters are accepted is answered with a page that gets
the client on exactly for the limits from 1, and for 0 when nothing matches.
-/
theorem limit_answered_iff {text : String} {n : ℤ} (htext : params.limit = some text)
    (hn : parseInt text = some n)
    (hselect : buildSelect parseDate now filter params.toQuery = .ok select)
    (hmatching : select.matching pg shots = some matching) :
    (∃ page, executeQuery pg parseDate now shots filter params.toQuery = .ok page ∧
        Consistent page) ↔
      0 < n ∨ n = 0 ∧ matching = [] := by
  refine consistent_limit_iff ?_ hselect hmatching
  rw [ListParams.toQuery, htext, Option.bind_some, hn, Option.map_some]

end Controller

/-! ### A table with one shot -/

/-- A request with a limit only. -/
def limitParams (limit : String) : ListParams := ⟨none, none, none, none, some limit, none⟩

def golferOne : ShotsFilter :=
  { canonical_user_id := some "golfer-1", vendor := none, vendor_user_id := none }

def limitSelect (limit : String) : Select :=
  { plainSelect golferOne with limit := pageLimit (limitParams limit).toQuery.limit }

theorem buildSelect_limitParams (parseDate : String → Option ℤ) (limit : String) :
    buildSelect parseDate recently golferOne (limitParams limit).toQuery =
      .ok (limitSelect limit) := by
  obtain ⟨nowIso, since, until_, cursor, hnow, hsince, huntil, hclub, hcursor, hselect⟩ :=
    buildSelect_eq_ok.mp (buildSelect_plain parseDate golferOne)
  refine buildSelect_eq_ok.mpr
    ⟨nowIso, since, until_, cursor, hnow, hsince, huntil, hclub, hcursor, ?_⟩
  rw [limitSelect, hselect]
  rfl

theorem matching_limitSelect (limit : String) :
    (limitSelect limit).matching Postgres.ofStrings [recentShot .trackpro "golfer-1"] =
      some [recentShot .trackpro "golfer-1"] := by
  have hpg := Postgres.documented_ofStrings
  have hstart := (hpg.timestamptz_iso 1707906645000 (by decide)).trans (if_pos (by decide))
  have hstop := (hpg.timestamptz_iso recently (by decide)).trans (if_pos (by decide))
  have huser : boundString Postgres.ofStrings (given golferOne.canonical_user_id) =
      some (some "golfer-1") := rfl
  have hcaptured : (recentShot .trackpro "golfer-1").capturedAt = 1710498600000000 := rfl
  have hmatches : Matches (limitSelect limit) (1707906645000 * 1000) (recently * 1000)
      (some "golfer-1") none (recentShot .trackpro "golfer-1") := by
    refine ⟨?_, ?_, by simp [recentShot], by simp [limitSelect, plainSelect, golferOne], by simp,
      by simp [limitSelect, plainSelect], fun _ => rfl⟩ <;>
    · rw [hcaptured]
      decide
  simp only [Select.matching, limitSelect, plainSelect, hstart, hstop, huser, Option.bind_eq_bind,
    Option.bind_some]
  refine congrArg some (Keyset.behind_none.trans ?_)
  exact List.filter_eq_self.mpr fun row hrow =>
    decide_eq_true (List.mem_singleton.mp hrow ▸ hmatches)

theorem limit_answered_iff_twenty : ∃ page,
    ShotsController.listByUser Postgres.ofStrings (fun _ => none) recently
      [recentShot .trackpro "golfer-1"] "golfer-1" (limitParams "20") = .ok page ∧
        Consistent page :=
  (limit_answered_iff rfl (by decide : parseInt "20" = some 20) (buildSelect_limitParams _ _)
    (matching_limitSelect _)).mpr (.inl (by decide))

/-- For no shots there are more, and no cursor to go on with. -/
theorem limit_zero_stops : ∃ page,
    ShotsController.listByUser Postgres.ofStrings (fun _ => none) recently
        [recentShot .trackpro "golfer-1"] "golfer-1" (limitParams "0") = .ok page ∧
      page.paging.has_more = true ∧ page.paging.next_cursor = none ∧ page.data = [] := by
  have hzero : parseInt "0" = some 0 := by decide
  have hread : (limitSelect "0").limit = .finite (0 : ℕ) := by
    show pageLimit ((parseInt "0").map fun n : ℤ => .finite n) = _
    rw [hzero, Option.map_some, pageLimit_intCast]
    rfl
  have hrun := run_of_matching (matching_limitSelect "0")
  rw [hread, limitClause_natCast, Option.map_some] at hrun
  have ha : Answers Postgres.ofStrings 0 none [recentShot .trackpro "golfer-1"]
      (respond (limitParams "0").toQuery (limitSelect "0")
        (Keyset.page (orderKey Postgres.ofStrings) (0 + 1) none
          [recentShot .trackpro "golfer-1"])) := answers_respond hread none _
  refine ⟨_, executeQuery_eq_ok.mpr ⟨_, _, buildSelect_limitParams _ "0", hrun, rfl⟩,
    ha.has_more.trans ?_, ?_, ?_⟩
  · rw [Keyset.behind_none]
    rfl
  · rw [ha.next_cursor (by rw [Keyset.behind_none]; decide), Keyset.page, List.take_zero]
    rfl
  · rw [ha.data, Keyset.page, List.take_zero]
    rfl

end PureplayIngest.Shots
