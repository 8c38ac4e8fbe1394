import PureplayIngest.Shots.Pagination
import PureplayIngest.Stats.StatsService
import PureplayIngest.Webhooks.Parsed

/-!
The statistics and the listing of one window are about the same shots.

A listing is paged through to its end, at any times, over a table that stays
as it is. The conditions of the two queries, each built in its own way, come
to the same when the ids that are asked for are not empty.
-/

namespace PureplayIngest.Stats

open Shared Shared.Domain Lib Shots Webhooks

/-- The listing of the shots a statistics query is about, without near duplicates. -/
def StatsQuery.listing (query : StatsQuery) (limit : Option JsNumber) : ShotsQuery :=
  { since := query.since, until_ := query.until_, club := query.club, cursor := none, limit
    include_near_duplicates := some false }

/-- A window between two instants the query gives itself, and no club or a valid one. -/
structure Explicit (parseDate : String → Option ℤ) (query : StatsQuery) (since until_ : ℤ) :
    Prop where
  start : ∃ text, given query.since = some text ∧
    parseWindowDate parseDate text "since" = .ok since
  stop : ∃ text, given query.until_ = some text ∧
    parseWindowDate parseDate text "until" = .ok until_
  before : since < until_
  start_year : 0 ≤ yearOf since ∧ yearOf since ≤ 9999
  stop_year : 0 ≤ yearOf until_ ∧ yearOf until_ ≤ 9999
  club : ∀ code ∈ query.club, (ClubCode.ofString? code).isSome

/-- The pages of a listing from a cursor on, up to the one that says there are no more. -/
inductive Paged (list : ℤ → ShotsQuery → Except ShotsError ShotsPage) (query : ShotsQuery) :
    Option String → List (List ShotWithoutPayload) → Prop
  | last {cursor : Option String} {now : ℤ} {page : ShotsPage}
      (response : list now { query with cursor } = .ok page)
      (has_more : page.paging.has_more = false) : Paged list query cursor [page.data]
  | next {cursor : Option String} {now : ℤ} {page : ShotsPage}
      {pages : List (List ShotWithoutPayload)}
      (response : list now { query with cursor } = .ok page)
      (has_more : page.paging.has_more = true)
      (tail : Paged list query page.paging.next_cursor pages) :
      Paged list query cursor (page.data :: pages)

/-- The shots of a listing but for putts. -/
def withoutPutts (pages : List (List ShotWithoutPayload)) : List ShotWithoutPayload :=
  pages.flatten.filter fun shot => shot.club_code.toString ≠ "PT"

/-- How the answers to a statistics query and to the listing in pages of `limit`
shots go together, whenever they are asked for. -/
structure Agree {ν : Type} (numbers : Numbers ν) (stats : ℤ → Except ShotsError (StatsResponse ν))
    (list : ℤ → ShotsQuery → Except ShotsError ShotsPage) (query : ShotsQuery) : Prop where
  succeed (now now' : ℤ) (date : -maxTimeValue ≤ now ∧ now ≤ maxTimeValue)
    (date' : -maxTimeValue ≤ now' ∧ now' ≤ maxTimeValue) :
    (∃ response, stats now = .ok response) ↔ ∃ page, list now' query = .ok page
  ends (now : ℤ) (page : ShotsPage) (first : list now query = .ok page) :
    ∃ pages, Paged list query none pages
  same (now : ℤ) (response : StatsResponse ν) (answer : stats now = .ok response)
    (pages : List (List ShotWithoutPayload)) (listed : Paged list query none pages)
    (few : (withoutPutts pages).length < maxStatsRows) :
    (∃ rows : List ShotWithoutPayload, response.by_club = aggregates numbers (rows.map toStatsRow) ∧
      rows.Perm (withoutPutts pages)) ∧
    (response.by_club.map fun club => club.sample_size).sum = response.shot_count ∧
    response.shot_count = (withoutPutts pages).length

/-! ### Reading a window -/

section

variable {κ : Type} [LinearOrder κ] {pg : Postgres κ} {parseDate : String → Option ℤ}
  {filter : ShotsFilter} {query : StatsQuery} {since until_ now : ℤ} {n : ℕ}

/-- The size of the pages matters only as it is read. -/
theorem executeQuery_limit {shots : List StoredShot} {query : ShotsQuery} {limit : Option JsNumber}
    (h : pageLimit query.limit = pageLimit limit) :
    executeQuery pg parseDate now shots filter query =
      executeQuery pg parseDate now shots filter { query with limit } := by
  simp only [executeQuery, buildSelect, h]
  rfl

theorem Explicit.windowed (hq : Explicit parseDate query since until_) (hone : 1 ≤ n)
    (hle : n ≤ 100) :
    Windowed parseDate (query.listing (some (.finite n))) since until_ n where
  since := hq.start
  until_ := hq.stop
  limit := rfl
  one_le := hone
  le_max := hle

theorem Explicit.window (hq : Explicit parseDate query since until_) (now nowIso : ℤ) :
    windowStart parseDate now query = .ok since ∧
      windowEnd parseDate nowIso query = .ok until_ ∧ checkWindow since until_ = .ok () := by
  obtain ⟨text, htext, hsince⟩ := hq.start
  obtain ⟨text', htext', huntil⟩ := hq.stop
  have hlt := isoString_lt hq.start_year hq.stop_year hq.before
  refine ⟨?_, ?_, if_neg hlt.not_ge⟩
  · rw [windowStart, htext]
    exact hsince
  · rw [windowEnd, htext']
    exact huntil

theorem Explicit.given_club (hq : Explicit parseDate query since until_) :
    given query.club = query.club := by
  cases hclub : query.club with
  | none => rfl
  | some code =>
      rw [given, Option.filter_some, if_pos (decide_eq_true ?_)]
      intro hempty
      have hvalid := hq.club code hclub
      rw [hempty] at hvalid
      exact absurd hvalid (by decide)

/-! ### The rows of the statistics -/

/-- The filters of the listing and of the statistics have the same conditions. -/
structure Named (filter : ShotsFilter) : Prop where
  user : given filter.canonical_user_id = filter.canonical_user_id
  vendorUser : given filter.vendor_user_id = filter.vendor_user_id

/-- A statistics query asks for the shots of the listing that are no putts. -/
theorem statsMatches_iff (hf : Named filter) (hq : Explicit parseDate query since until_)
    (limit : Option JsNumber) {select : StatsSelect} (hvendor : select.vendor = filter.vendor)
    (hclub : select.club = query.club) (row : StoredShot) :
    StatsMatches select (since * 1000) (until_ * 1000) filter.canonical_user_id
        filter.vendor_user_id row ↔
      Requested filter (query.listing limit) since until_ row ∧ row.club_code.toString ≠ "PT" := by
  have hgiven : given (query.listing limit).club = query.club := hq.given_club
  rw [StatsMatches, Requested, hf.user, hf.vendorUser, hgiven, hvendor, hclub]
  constructor
  · rintro ⟨hu, hv, hvu, hs, ht, hd, hpt, hc⟩
    exact ⟨⟨hs, ht, hu, hv, hvu, hc, fun _ => hd⟩, hpt⟩
  · rintro ⟨⟨hs, ht, hu, hv, hvu, hc, hd⟩, hpt⟩
    exact ⟨hu, hv, hvu, hs, ht, hd rfl, hpt, hc⟩

/-- The rows a statistics query is answered from, once its parameters have been accepted. -/
def statsRows (newest : Newest) (filter : ShotsFilter) (query : ShotsQuery) (since until_ : ℤ)
    (shots : List StoredShot) : List StoredShot :=
  (newest.order (shots.filter fun row =>
    Requested filter query since until_ row ∧ row.club_code.toString ≠ "PT")).take maxStatsRows

variable {ν : Type} {numbers : Numbers ν} {newest : Newest} {shots : List StoredShot}
  {userLabel : String} {response : StatsResponse ν}

/-- The select of an explicit query. -/
def explicitSelect (filter : ShotsFilter) (query : StatsQuery) (since until_ : ℤ) : StatsSelect :=
  { since, until_, canonical_user_id := filter.canonical_user_id, vendor := filter.vendor
    vendor_user_id := filter.vendor_user_id, club := query.club }

theorem Explicit.boundClub (hq : Explicit parseDate query since until_) :
    boundClub query.club = some () := by
  cases hclub : query.club with
  | none => rfl
  | some code =>
      rw [Stats.boundClub, Option.map_eq_some_iff]
      obtain ⟨c, hc⟩ := Option.isSome_iff_exists.mp (hq.club code hclub)
      exact ⟨c, hc, rfl⟩

theorem Explicit.filter_eq (hf : Named filter) (hq : Explicit parseDate query since until_)
    (limit : Option JsNumber) :
    (shots.filter fun row => StatsMatches (explicitSelect filter query since until_) (since * 1000)
      (until_ * 1000) filter.canonical_user_id filter.vendor_user_id row) =
    shots.filter fun row =>
      Requested filter (query.listing limit) since until_ row ∧ row.club_code.toString ≠ "PT" :=
  List.filter_congr fun row _ => decide_eq_decide.mpr (statsMatches_iff hf hq limit rfl rfl row)

omit [LinearOrder κ] in
/-- What a statistics query is answered. -/
theorem Explicit.executeStatsQuery_eq (hf : Named filter)
    (hq : Explicit parseDate query since until_) (limit : Option JsNumber)
    (ha : Accepted pg filter (query.listing limit) since until_)
    (hnow : -maxTimeValue ≤ now ∧ now ≤ maxTimeValue) :
    executeStatsQuery numbers pg newest parseDate now shots filter userLabel query =
      .ok (summarise numbers userLabel query (explicitSelect filter query since until_)
        ((statsRows newest filter (query.listing limit) since until_ shots).map
          fun row => toStatsRow row.toResponse)) := by
  obtain ⟨hstart, hstop, hcheck⟩ := hq.window now now
  have huser := ha.user
  have hvendorUser := ha.vendorUser
  rw [hf.user] at huser
  rw [hf.vendorUser] at hvendorUser
  refine executeStatsQuery_eq_ok.mpr ⟨explicitSelect filter query since until_, _,
    buildStatsSelect_eq_ok.mpr ⟨now, since, until_, isoOf_eq_ok.mpr ⟨hnow, rfl⟩, hstart, hstop,
      hcheck, ha.club, rfl⟩,
    statsRun_eq_some.mpr ⟨_, _, _, _, huser, hvendorUser, ha.start, ha.stop, hq.boundClub, rfl⟩, ?_⟩
  rw [hq.filter_eq hf limit]
  rfl

omit [LinearOrder κ] in
/-- A statistics query that succeeds shows what the listing will need as well. -/
theorem Explicit.accepted (hf : Named filter) (hq : Explicit parseDate query since until_)
    (hpg : pg.Documented) (limit : Option JsNumber)
    (h : executeStatsQuery numbers pg newest parseDate now shots filter userLabel query =
      .ok response) :
    Accepted pg filter (query.listing limit) since until_ := by
  obtain ⟨select, rows, hselect, hrun, _⟩ := executeStatsQuery_eq_ok.mp h
  obtain ⟨nowIso, since₁, until₁, _, hsince, huntil, _, hclub, rfl⟩ :=
    buildStatsSelect_eq_ok.mp hselect
  obtain ⟨hstart, hstop, _⟩ := hq.window now nowIso
  obtain rfl := Except.ok.inj (hsince.symm.trans hstart)
  obtain rfl := Except.ok.inj (huntil.symm.trans hstop)
  obtain ⟨c, u, since', until', hc, hu, hs, ht, _⟩ := statsRun_eq_some.mp hrun
  have hbounds := (hq.windowed le_rfl (n := 1) (by decide)).bounds
  obtain ⟨hsb, rfl⟩ := timestamptz_eq_some hpg hbounds.1 hs
  obtain ⟨hub, rfl⟩ := timestamptz_eq_some hpg hbounds.2 ht
  obtain rfl := boundString_eq hpg hc
  obtain rfl := boundString_eq hpg hu
  refine ⟨hs, ht, ⟨hsb.1, hub.2⟩, ?_, ?_, hclub⟩
  · rw [hf.user]
    exact hc
  · rw [hf.vendorUser]
    exact hu

/-! ### The rows of the listing -/

theorem pageLimit_finite (hn : n ≤ 100) : pageLimit (some (.finite n)) = .finite n := by
  have hle : (n : ℚ) ≤ maxLimit := by
    unfold maxLimit
    exact_mod_cast hn
  rw [pageLimit, min_eq_left hle]

theorem le_of_pageLimit {limit : Option JsNumber} (h : pageLimit limit = .finite n) : n ≤ 100 := by
  have hle : ∀ x : ℚ, .finite x = pageLimit limit → x ≤ 100 := by
    intro x hx
    unfold pageLimit at hx
    split at hx
    · rw [JsNumber.finite.inj hx]
      norm_num [defaultLimit]
    · rw [JsNumber.finite.inj hx]
      norm_num [defaultLimit]
    · exact absurd hx (by simp)
    · rw [JsNumber.finite.inj hx]
      exact min_le_right _ _
    · rw [JsNumber.finite.inj hx]
      exact le_rfl
  exact_mod_cast hle n h.symm

/-- The listing that answers from a table which stays as it is. -/
def listingOf (pg : Postgres κ) (parseDate : String → Option ℤ) (filter : ShotsFilter)
    (table : ShotsTable) (now : ℤ) (query : ShotsQuery) : Except ShotsError ShotsPage :=
  executeQuery pg parseDate now table.rows filter query

/-- A limit that is read as `n` gives the listing in pages of `n`. -/
theorem listingOf_limit {limit : Option JsNumber} (hlimit : pageLimit limit = .finite n)
    (table : ShotsTable) (cursor : Option String) :
    listingOf pg parseDate filter table now { query.listing limit with cursor } =
      executeQuery pg parseDate now table.rows filter
        { query.listing (some (.finite n)) with cursor } :=
  executeQuery_limit (hlimit.trans (pageLimit_finite (le_of_pageLimit hlimit)).symm)

theorem Paged.toPageWalk {limit : Option JsNumber} (hlimit : pageLimit limit = .finite n)
    {table : ShotsTable} {cursor : Option String} {pages : List (List ShotWithoutPayload)}
    (h : Paged (listingOf pg parseDate filter table) (query.listing limit) cursor pages) :
    ∃ requests, (∀ request ∈ requests, request.2 = table) ∧
      PageWalk pg parseDate filter (query.listing (some (.finite n))) cursor requests pages := by
  induction h with
  | @last cursor now page response has_more =>
      exact ⟨[(now, table)], by simp,
        .last ((listingOf_limit hlimit _ _).symm.trans response) has_more⟩
  | @next cursor now page pages response has_more tail ih =>
      obtain ⟨requests, htable, hwalk⟩ := ih
      refine ⟨(now, table) :: requests, fun request hr => ?_,
        .next ((listingOf_limit hlimit _ _).symm.trans response) has_more hwalk⟩
      obtain rfl | hr := List.mem_cons.mp hr
      · rfl
      · exact htable request hr

theorem Paged.of_pageWalk {limit : Option JsNumber} (hlimit : pageLimit limit = .finite n)
    {table : ShotsTable} {cursor : Option String} {requests : List (ℤ × ShotsTable)}
    {pages : List (List ShotWithoutPayload)} (htable : ∀ request ∈ requests, request.2 = table)
    (h : PageWalk pg parseDate filter (query.listing (some (.finite n))) cursor requests pages) :
    Paged (listingOf pg parseDate filter table) (query.listing limit) cursor pages := by
  induction h with
  | last response has_more =>
      obtain rfl := htable _ List.mem_cons_self
      exact .last ((listingOf_limit hlimit _ _).trans response) has_more
  | next response has_more tail ih =>
      obtain rfl := htable _ List.mem_cons_self
      exact .next ((listingOf_limit hlimit _ _).trans response) has_more
        (ih fun request hr => htable request (List.mem_cons_of_mem _ hr))

/-- The pages of a table that stays as it is hold the shots that are asked for, once each. -/
theorem pages_perm {query : ShotsQuery} (hw : Windowed parseDate query since until_ n)
    (hpg : pg.Documented) {table : ShotsTable} (hms : table.MillisecondPrecision)
    {requests : List (ℤ × ShotsTable)} {pages : List (List ShotWithoutPayload)}
    (htable : ∀ request ∈ requests, request.2 = table)
    (h : PageWalk pg parseDate filter query none requests pages) :
    pages.flatten.Perm
      ((table.requested filter query since until_).map StoredShot.toResponse) := by
  obtain ⟨walked, hwalk, rfl⟩ :=
    h.toWalk hw.pageLimit_eq hw.one_le hpg (fun r hr => htable r hr ▸ hms) .start
  rw [hw.map_asked] at hwalk
  have htables : ∀ rows ∈ requests.map fun request => request.2.requested filter query since until_,
      rows = table.requested filter query since until_ := by
    intro rows hrows
    obtain ⟨request, hr, rfl⟩ := List.mem_map.mp hrows
    rw [htable request hr]
  have hkeys : ((table.requested filter query since until_).map (orderKey pg)).Nodup :=
    orderKey_nodup hpg table _
  have horder := hwalk.pairwise fun rows hrows => htables rows hrows ▸ hkeys
  have hnodup : walked.flatten.Nodup := horder.imp fun hlt heq => absurd (heq ▸ hlt) (lt_irrefl _)
  rw [← List.map_flatten]
  refine List.Perm.map _ ((List.perm_ext_iff_of_nodup hnodup hkeys.of_map).mpr fun row => ?_)
  constructor
  · intro hrow
    obtain ⟨rows, hrows, hmem⟩ := hwalk.exists_table hrow
    exact htables rows hrows ▸ hmem
  · intro hrow
    exact hwalk.mem (fun rows hrows => htables rows hrows ▸ hkeys)
      (fun rows hrows => htables rows hrows ▸ hrow) (by simp)

/-! ### The same shots -/

variable (newest) in
/-- As long as nothing is cut off, the rows of the statistics are what the
pages hold without the putts. -/
theorem statsRows_perm {query : ShotsQuery} {table : ShotsTable}
    {pages : List (List ShotWithoutPayload)}
    (hperm : pages.flatten.Perm
      ((table.requested filter query since until_).map StoredShot.toResponse))
    (hfew : (withoutPutts pages).length < maxStatsRows) :
    ((statsRows newest filter query since until_ table.rows).map StoredShot.toResponse).Perm
      (withoutPutts pages) := by
  have hlisted : (withoutPutts pages).Perm (((newest.order (table.rows.filter fun row =>
      Requested filter query since until_ row ∧ row.club_code.toString ≠ "PT"))).map
        StoredShot.toResponse) := by
    refine (hperm.filter _).trans ?_
    refine List.Perm.trans ?_ ((newest.perm _).map _).symm
    rw [ShotsTable.requested, List.filter_map, List.filter_filter]
    refine List.Perm.of_eq (congrArg _ (List.filter_congr fun row _ => ?_))
    rw [Bool.decide_and, Bool.and_comm]
    rfl
  rw [statsRows, List.take_of_length_le]
  · exact hlisted.symm
  · rw [hlisted.length_eq, List.length_map] at hfew
    exact hfew.le

/-- Statistics and listing agree whatever the filter, once it names somebody. -/
theorem agree_of_named (hpg : pg.Documented) (hf : Named filter)
    (hq : Explicit parseDate query since until_) {limit : Option JsNumber}
    (hlimit : pageLimit limit = .finite n) (hone : 1 ≤ n) {table : ShotsTable}
    (hms : table.MillisecondPrecision) :
    Agree numbers
      (fun now =>
        executeStatsQuery numbers pg newest parseDate now table.rows filter userLabel query)
      (listingOf pg parseDate filter table) (query.listing limit) where
  succeed now now' date date' := by
    have hw := hq.windowed hone (le_of_pageLimit hlimit)
    constructor
    · rintro ⟨response, hresponse⟩
      obtain ⟨page, hpage, _⟩ := hw.executeQuery_eq hpg
        (hq.accepted hf hpg (some (.finite n)) hresponse) date' .start table.rows
      exact ⟨page, (listingOf_limit hlimit table none).trans hpage⟩
    · rintro ⟨page, hpage⟩
      have hpage' := (listingOf_limit hlimit table none).symm.trans hpage
      exact ⟨_, hq.executeStatsQuery_eq hf (some (.finite n)) (hw.accepted hpg hpage').2 date⟩
  ends now page first := by
    have hw := hq.windowed hone (le_of_pageLimit hlimit)
    have hpage := (listingOf_limit hlimit table none).symm.trans first
    obtain ⟨m, pages, hwalk⟩ := (pages_complete hpg hw filter).ends table (fun _ => now) hms
      (fun _ => (hw.accepted hpg hpage).1) ⟨page, hpage⟩
    refine ⟨pages, .of_pageWalk hlimit (fun request hr => ?_) hwalk⟩
    obtain ⟨k, _, rfl⟩ := List.mem_map.mp hr
    rfl
  same now response answer pages listed few := by
    have hw := hq.windowed hone (le_of_pageLimit hlimit)
    obtain ⟨requests, htable, hwalk⟩ := listed.toPageWalk hlimit
    have hperm := pages_perm hw hpg hms htable hwalk
    have ha := hq.accepted hf hpg (some (.finite n)) answer
    obtain ⟨nowIso, hnow⟩ : ∃ nowIso, isoOf now = .ok nowIso := by
      obtain ⟨_, _, hselect, _⟩ := executeStatsQuery_eq_ok.mp answer
      obtain ⟨nowIso, _, _, hnow, _⟩ := buildStatsSelect_eq_ok.mp hselect
      exact ⟨nowIso, hnow⟩
    obtain rfl := Except.ok.inj
      (answer.symm.trans (hq.executeStatsQuery_eq hf _ ha (isoOf_eq_ok.mp hnow).1))
    have hrows := statsRows_perm newest hperm few
    refine ⟨⟨_, by rw [List.map_map]; rfl, hrows⟩, ?_, ?_⟩
    · exact sum_sample_size numbers _
    · rw [← hrows.length_eq, List.length_map]
      exact List.length_map _

end

/-- The two listings and the statistics that go with them, for a table, a query
and a page size. -/
structure SameShots {κ ν : Type} [LinearOrder κ] (numbers : Numbers ν) (pg : Postgres κ)
    (newest : Newest) (parseDate : String → Option ℤ) (table : ShotsTable) (query : StatsQuery)
    (limit : Option JsNumber) : Prop where
  user (userId : String) (named : userId ≠ "") :
    Agree numbers (fun now => getStats numbers pg newest parseDate now table.rows userId query)
      (fun now query => listByCanonicalUser pg parseDate now table.rows userId query)
      (query.listing limit)
  vendorUser (vendor vendorUserId : String) (named : vendor ≠ "" ∧ vendorUserId ≠ "") :
    Agree numbers
      (fun now =>
        getStatsByVendorUser numbers pg newest parseDate now table.rows vendor vendorUserId query)
      (fun now query => listByVendorUser pg parseDate now table.rows vendor vendorUserId query)
      (query.listing limit)

/-- With capture times in whole milliseconds, statistics and listing are about
the same shots. -/
theorem sameShots {κ ν : Type} [LinearOrder κ] {pg : Postgres κ} (hpg : pg.Documented)
    {parseDate : String → Option ℤ} {query : StatsQuery} {since until_ : ℤ}
    (hq : Explicit parseDate query since until_) {limit : Option JsNumber} {n : ℕ}
    (hlimit : pageLimit limit = .finite n) (hone : 1 ≤ n) {table : ShotsTable}
    (hms : table.MillisecondPrecision) (numbers : Numbers ν) (newest : Newest) :
    SameShots numbers pg newest parseDate table query limit where
  user userId named :=
    agree_of_named hpg ⟨given_some named, rfl⟩ hq hlimit hone hms
  vendorUser vendor vendorUserId named := by
    cases hvendor : Vendor.ofString? vendor with
    | none =>
        simp only [getStatsByVendorUser, listByVendorUser, hvendor]
        exact ⟨fun _ _ _ _ => by simp, fun _ _ h => absurd h (by simp),
          fun _ _ h => absurd h (by simp)⟩
    | some v =>
        simp only [getStatsByVendorUser, listByVendorUser, hvendor]
        exact agree_of_named hpg ⟨rfl, given_some named.2⟩ hq hlimit hone hms

/-! ### A table that is finer than milliseconds -/

/-- A drive by golfer-1 at a time with microseconds. -/
def fineShot (id : String) (microseconds : Fin 1000) : StoredShot where
  toNormalisedShot :=
    { driveShot driveSha256 id firstDrive 1710498601000 with canonical_user_id := some "golfer-1" }
  microseconds := microseconds

/-- Two drives in one millisecond. -/
def twoDrives (first second : Fin 1000) : ShotsTable where
  rows := [fineShot firstId first, fineShot secondId second]
  primaryKey := by
    show [firstId, secondId].Nodup
    decide
  ids_ne_empty row hrow := by
    obtain rfl | rfl := List.mem_pair.mp hrow
    · show firstId ≠ ""
      decide
    · show secondId ≠ ""
      decide
  ids_characters row hrow := by
    obtain rfl | rfl := List.mem_pair.mp hrow
    · show '\x00' ∉ firstId.toList
      decide
    · show '\x00' ∉ secondId.toList
      decide

/-- The day of these drives. -/
def dayQuery : StatsQuery :=
  { since := some "2024-03-15T00:00:00Z", until_ := some "2024-03-16T00:00:00Z", club := none }

theorem explicit_dayQuery : Explicit scanDate dayQuery 1710460800000 1710547200000 where
  start := ⟨_, rfl, rfl⟩
  stop := ⟨_, rfl, rfl⟩
  before := by decide
  start_year := by decide
  stop_year := by decide
  club := by simp [dayQuery]

/-- Two drives in whole milliseconds. -/
theorem sameShots_twoDrives :
    SameShots Numbers.ofFractions Postgres.ofStrings Newest.stable scanDate (twoDrives 0 0) dayQuery
      none :=
  sameShots Postgres.documented_ofStrings explicit_dayQuery (n := 50)
    (by norm_num [pageLimit, defaultLimit]) (by decide)
    (fun row hrow => by obtain rfl | rfl := List.mem_pair.mp hrow <;> rfl) _ _

def golferFilter : ShotsFilter :=
  { canonical_user_id := some "golfer-1", vendor := none, vendor_user_id := none }

theorem accepted_dayQuery (limit : Option JsNumber) :
    Accepted Postgres.ofStrings golferFilter (dayQuery.listing limit) 1710460800000
      1710547200000 where
  start := (Postgres.documented_ofStrings.timestamptz_iso _ (by decide)).trans (if_pos (by decide))
  stop := (Postgres.documented_ofStrings.timestamptz_iso _ (by decide)).trans (if_pos (by decide))
  bounds := by decide
  user := rfl
  vendorUser := rfl
  club := rfl

/-- Both drives are asked for. -/
theorem requested_twoDrives (first second : Fin 1000) (limit : Option JsNumber) :
    (twoDrives first second).requested golferFilter (dayQuery.listing limit) 1710460800000
      1710547200000 = [fineShot firstId first, fineShot secondId second] := by
  refine List.filter_eq_self.mpr fun row hrow => decide_eq_true ?_
  have hfine : ∃ id microseconds, row = fineShot id microseconds := by
    obtain rfl | hrow := List.mem_cons.mp hrow
    · exact ⟨_, _, rfl⟩
    · exact ⟨_, _, List.mem_singleton.mp hrow⟩
  obtain ⟨id, microseconds, rfl⟩ := hfine
  have hcaptured : (fineShot id microseconds).capturedAt = 1710498600000000 + microseconds := rfl
  refine ⟨?_, ?_, by simp [golferFilter, given, fineShot], by simp [golferFilter],
    by simp [golferFilter, given], by simp [StatsQuery.listing, dayQuery, given], fun _ => rfl⟩
  · rw [hcaptured]
    omega
  · rw [hcaptured]
    have hlt := microseconds.isLt
    omega

theorem orderKey_fineShot (id : String) (microseconds : Fin 1000) :
    orderKey Postgres.ofStrings (fineShot id microseconds) =
      toLex (1710498600000000 + (microseconds : ℤ), id) := rfl

/-- The first page holds the later drive, and the page behind it is empty. -/
theorem pages_fine : Paged
    (listingOf Postgres.ofStrings scanDate golferFilter (twoDrives 500 300))
    (dayQuery.listing (some (.finite 1))) none [[(fineShot firstId 500).toResponse], []] := by
  have hw : Windowed scanDate (dayQuery.listing (some (.finite (1 : ℕ)))) 1710460800000
      1710547200000 1 := explicit_dayQuery.windowed le_rfl (by decide)
  have hpg := Postgres.documented_ofStrings
  have hone : (1 : ℚ) = ((1 : ℕ) : ℚ) := rfl
  rw [hone]
  have hnow : -maxTimeValue ≤ 0 ∧ 0 ≤ maxTimeValue := by decide
  obtain ⟨first, hfirst, hanswers⟩ := hw.executeQuery_eq hpg (accepted_dayQuery _) hnow .start
    (twoDrives 500 300).rows
  have hafter : CursorAt Postgres.ofStrings (some (encodeCursor 1710498600000 firstId))
      (some (toLex (1710498600000 * 1000, Postgres.ofStrings.sortKey firstId))) :=
    .after (by decide) (by decide) (by decide)
  obtain ⟨second, hsecond, hanswers'⟩ := hw.executeQuery_eq hpg (accepted_dayQuery _) hnow hafter
    (twoDrives 500 300).rows
  have hrows := requested_twoDrives 500 300 (some (.finite (1 : ℕ)))
  rw [ShotsTable.requested] at hrows
  rw [hrows] at hanswers hanswers'
  have hlt : orderKey Postgres.ofStrings (fineShot secondId 300) ≤
      orderKey Postgres.ofStrings (fineShot firstId 500) := by
    rw [orderKey_fineShot, orderKey_fineShot]
    exact (Prod.Lex.toLex_lt_toLex.mpr (.inl (by decide))).le
  have hbehind : Keyset.behind (orderKey Postgres.ofStrings)
      (some (toLex (1710498600000 * 1000, Postgres.ofStrings.sortKey firstId)))
      [fineShot firstId 500, fineShot secondId 300] = [] := by
    refine List.filter_eq_nil_iff.mpr fun row hrow hbound => ?_
    have hle := of_decide_eq_true hbound _ rfl
    obtain rfl | rfl := List.mem_pair.mp hrow
    · rw [orderKey_fineShot, Prod.Lex.toLex_lt_toLex] at hle
      exact absurd hle (by decide)
    · rw [orderKey_fineShot, Prod.Lex.toLex_lt_toLex] at hle
      exact absurd hle (by decide)
  have hall : Keyset.behind (orderKey Postgres.ofStrings) none
      [fineShot firstId 500, fineShot secondId 300] =
        [fineShot firstId 500, fineShot secondId 300] := Keyset.behind_none
  have hpage : Keyset.page (orderKey Postgres.ofStrings) 1 none
      [fineShot firstId 500, fineShot secondId 300] = [fineShot firstId 500] := by
    rw [Keyset.page, hall, Keyset.descending]
    simp only [List.insertionSort_cons, List.insertionSort_nil, List.orderedInsert, hlt, if_true]
    rfl
  have hdata : first.data = [(fineShot firstId 500).toResponse] := by
    rw [hanswers.data, hpage]
    rfl
  have hdata' : second.data = [] := by
    rw [hanswers'.data, Keyset.page, hbehind]
    rfl
  have hcursor : first.paging.next_cursor = some (encodeCursor 1710498600000 firstId) := by
    rw [hanswers.next_cursor (by rw [hall]; decide), hpage]
    rfl
  rw [← hdata, ← hdata']
  refine .next hfirst (by rw [hanswers.has_more, hall]; decide) ?_
  rw [hcursor]
  exact .last hsecond (by rw [hanswers'.has_more, hbehind]; decide)

/-- The page behind the first drive does not hold the second. -/
theorem not_sameShots_fine :
    ¬ SameShots Numbers.ofFractions Postgres.ofStrings Newest.stable scanDate (twoDrives 500 300)
      dayQuery (some (.finite 1)) := by
  intro h
  obtain ⟨response, hresponse⟩ : ∃ response, getStats Numbers.ofFractions Postgres.ofStrings
      Newest.stable scanDate 0 (twoDrives 500 300).rows "golfer-1" dayQuery = .ok response ∧
        response.shot_count = 2 := by
    refine ⟨_, explicit_dayQuery.executeStatsQuery_eq ⟨rfl, rfl⟩ none (accepted_dayQuery none)
      (by decide), ?_⟩
    have hall : ∀ row ∈ (twoDrives 500 300).rows,
        Requested golferFilter (dayQuery.listing none) 1710460800000 1710547200000 row ∧
          row.club_code.toString ≠ "PT" := by
      intro row hrow
      have hrequested : row ∈ (twoDrives 500 300).requested golferFilter (dayQuery.listing none)
          1710460800000 1710547200000 := by
        rw [requested_twoDrives]
        exact hrow
      refine ⟨(ShotsTable.mem_requested.mp hrequested).2, ?_⟩
      obtain rfl | rfl := List.mem_pair.mp hrow
      · decide
      · decide
    show ((statsRows Newest.stable golferFilter (dayQuery.listing none) 1710460800000 1710547200000
      (twoDrives 500 300).rows).map _).length = 2
    rw [List.length_map, statsRows, List.length_take, (Newest.stable.perm _).length_eq,
      List.filter_eq_self.mpr fun row hrow => decide_eq_true (hall row hrow)]
    rfl
  obtain ⟨_, _, hcount⟩ :=
    (h.user "golfer-1" (by decide)).same 0 response hresponse.1 _ pages_fine (by decide)
  rw [hresponse.2] at hcount
  exact absurd hcount (by decide)

end PureplayIngest.Stats
