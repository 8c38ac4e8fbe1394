import Mathlib.Data.List.Pairwise
import PureplayIngest.Shots.ShotsService
import PureplayIngest.Webhooks.Parsed

/-!
A walk through the pages of a listing, each request with the cursor of the
response before, while shots are being inserted.

With capture times in whole milliseconds, the cursor a response carries stands
for the key of its last row, and the walk is one of keyset pagination. A window
that is not given moves with the clock from one request to the next.
-/

namespace PureplayIngest.Shots

open Shared Shared.Domain Lib

/-- The table: its primary key is `canonical_shot_id`, which holds ULIDs. -/
structure ShotsTable where
  rows : List StoredShot
  primaryKey : (rows.map fun row => row.canonical_shot_id).Nodup
  ids_ne_empty : ∀ row ∈ rows, row.canonical_shot_id ≠ ""
  ids_characters : ∀ row ∈ rows, '\x00' ∉ row.canonical_shot_id.toList

/-- All capture times are in whole milliseconds. -/
def ShotsTable.MillisecondPrecision (table : ShotsTable) : Prop :=
  ∀ row ∈ table.rows, row.microseconds = 0

/-- The window of a request made at some instant. -/
def windowAt (parseDate : String → Option ℤ) (now : ℤ) (query : ShotsQuery) : Option (ℤ × ℤ) := do
  let since ← (windowStart parseDate now query).toOption
  let until_ ← (windowEnd parseDate now query).toOption
  return (since, until_)

/-- A query for pages of `n` shots between two instants that it gives itself. -/
structure Windowed (parseDate : String → Option ℤ) (query : ShotsQuery) (since until_ : ℤ) (n : ℕ) :
    Prop where
  since : ∃ text, given query.since = some text ∧
    parseWindowDate parseDate text "since" = .ok since
  until_ : ∃ text, given query.until_ = some text ∧
    parseWindowDate parseDate text "until" = .ok until_
  limit : query.limit = some (.finite n)
  one_le : 1 ≤ n
  le_max : n ≤ 100

/-- The shots a request asks for, whatever its cursor. -/
def Requested (filter : ShotsFilter) (query : ShotsQuery) (since until_ : ℤ) (row : StoredShot) :
    Prop :=
  since * 1000 ≤ row.capturedAt ∧ row.capturedAt ≤ until_ * 1000 ∧
    (∀ c ∈ given filter.canonical_user_id, row.canonical_user_id = some c) ∧
    (∀ v ∈ filter.vendor, row.vendor = v) ∧
    (∀ u ∈ given filter.vendor_user_id, row.vendor_user_id = u) ∧
    (∀ c ∈ given query.club, row.club_code.toString = c) ∧
    (query.include_near_duplicates.getD false = false → row.duplicate_of = none)

instance (filter : ShotsFilter) (query : ShotsQuery) (since until_ : ℤ) (row : StoredShot) :
    Decidable (Requested filter query since until_ row) :=
  inferInstanceAs (Decidable (_ ∧ _ ∧ _ ∧ _ ∧ _ ∧ _ ∧ _))

/-- The shots a request made at some instant asks for, in the window it has then. -/
def Asked (parseDate : String → Option ℤ) (now : ℤ) (filter : ShotsFilter) (query : ShotsQuery)
    (row : StoredShot) : Prop :=
  ∃ window ∈ windowAt parseDate now query, Requested filter query window.1 window.2 row

instance (parseDate : String → Option ℤ) (now : ℤ) (filter : ShotsFilter) (query : ShotsQuery)
    (row : StoredShot) : Decidable (Asked parseDate now filter query row) :=
  inferInstanceAs (Decidable (∃ window ∈ windowAt parseDate now query, _))

section

variable {κ : Type} [LinearOrder κ] {pg : Postgres κ} {parseDate : String → Option ℤ}
  {filter : ShotsFilter} {query : ShotsQuery} {since until_ now : ℤ} {n : ℕ}

variable (pg parseDate filter query) in
/-- The responses to a walk's requests, each of them made at some instant and
answered from the table as it is then. -/
inductive PageWalk : Option String → List (ℤ × ShotsTable) → List (List ShotWithoutPayload) → Prop
  | last {cursor : Option String} {now : ℤ} {table : ShotsTable} {page : ShotsPage}
      (response : executeQuery pg parseDate now table.rows filter { query with cursor } = .ok page)
      (has_more : page.paging.has_more = false) : PageWalk cursor [(now, table)] [page.data]
  | next {cursor : Option String} {now : ℤ} {table : ShotsTable} {page : ShotsPage}
      {requests : List (ℤ × ShotsTable)} {pages : List (List ShotWithoutPayload)}
      (response : executeQuery pg parseDate now table.rows filter { query with cursor } = .ok page)
      (has_more : page.paging.has_more = true)
      (tail : PageWalk page.paging.next_cursor requests pages) :
      PageWalk cursor ((now, table) :: requests) (page.data :: pages)

/-- The parameters that are the same in every request, as the database reads them. -/
structure Accepted (pg : Postgres κ) (filter : ShotsFilter) (query : ShotsQuery)
    (since until_ : ℤ) : Prop where
  start : pg.timestamptz (.str (isoString since)) = some (since * 1000)
  stop : pg.timestamptz (.str (isoString until_)) = some (until_ * 1000)
  bounds : minTimestamp ≤ since ∧ until_ ≤ maxTimestamp
  user : boundString pg (given filter.canonical_user_id) = some (given filter.canonical_user_id)
  vendorUser : boundString pg (given filter.vendor_user_id) = some (given filter.vendor_user_id)
  club : checkClub query.club = .ok ()

/-- The key a cursor stands for. -/
inductive CursorAt (pg : Postgres κ) : Option String → Option (ℤ ×ₗ κ) → Prop
  | start : CursorAt pg none none
  | after {t : ℤ} {id : String} (bounds : minTimestamp ≤ t ∧ t ≤ maxTimestamp) (ne_empty : id ≠ "")
      (characters : '\x00' ∉ id.toList) :
      CursorAt pg (some (encodeCursor t id)) (some (toLex (t * 1000, pg.sortKey id)))

theorem toOption_eq_some {ε α : Type} {x : Except ε α} {a : α} :
    x.toOption = some a ↔ x = .ok a := by
  cases x with
  | error e => exact ⟨fun h => absurd h (by simp [Except.toOption]), fun h => absurd h (by simp)⟩
  | ok b => exact ⟨fun h => congrArg _ (Option.some.inj h), fun h => congrArg _ (Except.ok.inj h)⟩

theorem windowAt_eq_some :
    windowAt parseDate now query = some (since, until_) ↔
      windowStart parseDate now query = .ok since ∧ windowEnd parseDate now query = .ok until_ := by
  simp only [windowAt, Option.bind_eq_bind, Option.bind_eq_some_iff, Option.pure_def,
    Option.some.injEq, Prod.mk.injEq, toOption_eq_some]
  constructor
  · rintro ⟨since', hstart, until', hstop, rfl, rfl⟩
    exact ⟨hstart, hstop⟩
  · rintro ⟨hstart, hstop⟩
    exact ⟨since, hstart, until_, hstop, rfl, rfl⟩

theorem asked_iff (hwindow : windowAt parseDate now query = some (since, until_))
    {row : StoredShot} :
    Asked parseDate now filter query row ↔ Requested filter query since until_ row := by
  rw [Asked, hwindow]
  constructor
  · rintro ⟨window, hsome, h⟩
    obtain rfl := Option.some.inj hsome
    exact h
  · exact fun h => ⟨_, rfl, h⟩

theorem parseWindowDate_bounds {value fieldName : String} {t : ℤ}
    (h : parseWindowDate parseDate value fieldName = .ok t) :
    -maxTimeValue ≤ t ∧ t ≤ maxTimeValue := by
  rw [parseWindowDate] at h
  split at h
  · exact absurd h (by simp)
  · obtain ⟨hbounds, rfl⟩ := isoOf_eq_ok.mp h
    exact hbounds

theorem windowStart_bounds (h : windowStart parseDate now query = .ok since) :
    -maxTimeValue ≤ since ∧ since ≤ maxTimeValue := by
  rw [windowStart] at h
  split at h
  · exact parseWindowDate_bounds h
  · obtain ⟨hbounds, rfl⟩ := isoOf_eq_ok.mp h
    exact hbounds

theorem windowEnd_bounds (hnow : -maxTimeValue ≤ now ∧ now ≤ maxTimeValue)
    (h : windowEnd parseDate now query = .ok until_) :
    -maxTimeValue ≤ until_ ∧ until_ ≤ maxTimeValue := by
  rw [windowEnd] at h
  split at h
  · exact parseWindowDate_bounds h
  · exact Except.ok.inj h ▸ hnow

/-- A request that succeeds shows what it takes. -/
theorem accepted_of_executeQuery (hpg : pg.Documented) {cursor : Option String}
    {shots : List StoredShot} {page : ShotsPage}
    (h : executeQuery pg parseDate now shots filter { query with cursor } = .ok page) :
    (-maxTimeValue ≤ now ∧ now ≤ maxTimeValue) ∧ ∃ since until_,
      windowAt parseDate now query = some (since, until_) ∧
        Accepted pg filter query since until_ := by
  obtain ⟨select, rows, hselect, hrun, rfl⟩ := executeQuery_eq_ok.mp h
  obtain ⟨nowIso, since, until_, _, hnowIso, hstart, hstop, hclub, _, rfl⟩ :=
    buildSelect_eq_ok.mp hselect
  obtain ⟨hnow, rfl⟩ := isoOf_eq_ok.mp hnowIso
  obtain ⟨since', until', c, u, _, _, hs, hu, hc, hv, _, _, _⟩ := run_eq_some.mp hrun
  obtain ⟨hsb, rfl⟩ := timestamptz_eq_some hpg (windowStart_bounds hstart) hs
  obtain ⟨hub, rfl⟩ := timestamptz_eq_some hpg (windowEnd_bounds hnow hstop) hu
  obtain rfl := boundString_eq hpg hc
  obtain rfl := boundString_eq hpg hv
  exact ⟨hnow, since, until_, windowAt_eq_some.mpr ⟨hstart, hstop⟩,
    hs, hu, ⟨hsb.1, hub.2⟩, hc, hv, hclub⟩

namespace Windowed

/-- The window is that of all requests. -/
theorem windowAt_eq (hw : Windowed parseDate query since until_ n) (now : ℤ) :
    windowAt parseDate now query = some (since, until_) := by
  obtain ⟨text, htext, hsince⟩ := hw.since
  obtain ⟨text', htext', huntil⟩ := hw.until_
  refine windowAt_eq_some.mpr ?_
  simp only [windowStart, windowEnd, htext, htext']
  exact ⟨hsince, huntil⟩

theorem bounds (hw : Windowed parseDate query since until_ n) :
    (-maxTimeValue ≤ since ∧ since ≤ maxTimeValue) ∧
      -maxTimeValue ≤ until_ ∧ until_ ≤ maxTimeValue := by
  obtain ⟨_, _, hsince⟩ := hw.since
  obtain ⟨_, _, huntil⟩ := hw.until_
  exact ⟨parseWindowDate_bounds hsince, parseWindowDate_bounds huntil⟩

/-- A request that succeeds shows what the others will need as well. -/
theorem accepted (hw : Windowed parseDate query since until_ n) (hpg : pg.Documented)
    {cursor : Option String} {shots : List StoredShot} {page : ShotsPage}
    (h : executeQuery pg parseDate now shots filter { query with cursor } = .ok page) :
    (-maxTimeValue ≤ now ∧ now ≤ maxTimeValue) ∧ Accepted pg filter query since until_ := by
  obtain ⟨hnow, since', until', hwindow, haccepted⟩ := accepted_of_executeQuery hpg h
  obtain ⟨rfl, rfl⟩ := Prod.mk.inj (Option.some.inj (hwindow.symm.trans (hw.windowAt_eq now)))
  exact ⟨hnow, haccepted⟩

end Windowed

/-! ### One request -/

theorem encodeCursor_ne_empty (t : ℤ) {id : String} (hid : id ≠ "") : encodeCursor t id ≠ "" := by
  intro h
  have hread := decodeCursor_encodeCursor t hid
  rw [h] at hread
  have hempty : decodeCursor "" = .error invalidCursorError := rfl
  exact absurd (hempty.symm.trans hread) (by simp)

omit [LinearOrder κ] in
/-- The database gets the cursor's key back. -/
theorem CursorAt.bound (hpg : pg.Documented) {cursor : Option String} {bound : Option (ℤ ×ₗ κ)}
    (h : CursorAt pg cursor bound) :
    ∃ params, cursorParams cursor = .ok params ∧ boundCursor pg params = some bound := by
  cases h with
  | start => exact ⟨none, rfl, rfl⟩
  | @after t id hbounds hne hcharacters =>
      refine ⟨some (.str (isoString t), .str id), ?_, ?_⟩
      · rw [cursorParams, given, Option.filter_some,
          if_pos (decide_eq_true (encodeCursor_ne_empty t hne))]
        simp only [decodeCursor_encodeCursor t hne]
        rfl
      · have ht : -maxTimeValue ≤ t ∧ t ≤ maxTimeValue := by
          unfold minTimestamp maxTimestamp at hbounds
          unfold maxTimeValue
          omega
        rw [boundCursor, hpg.timestamptz_iso t ht, if_pos hbounds, hpg.varchar_str,
          if_neg hcharacters]
        rfl

theorem limitClause_natCast (n : ℕ) : limitClause (.finite n) = some (n + 1) := by
  have hcast : (n : ℚ) + 1 = ((n + 1 : ℕ) : ℚ) := by push_cast; rfl
  rw [limitClause, hcast, Rat.den_natCast, Rat.num_natCast, if_pos ⟨rfl, Int.natCast_nonneg _⟩]
  rfl

theorem exceeds_natCast (length n : ℕ) : exceeds length (.finite n) = decide (n < length) := by
  rw [exceeds, decide_eq_decide, Nat.cast_lt]

theorem slice_natCast {α : Type} (rows : List α) (n : ℕ) :
    slice rows (.finite n) = rows.take n := by
  have hstop : (n : ℚ).num.tdiv (n : ℚ).den = (n : ℤ) := by
    rw [Rat.num_natCast, Rat.den_natCast]
    exact Int.tdiv_one _
  rw [slice]
  simp only [hstop, Int.natCast_nonneg, if_true, Int.toNat_natCast]

theorem Windowed.pageLimit_eq (hw : Windowed parseDate query since until_ n) :
    pageLimit query.limit = .finite n := by
  have hle : (n : ℚ) ≤ maxLimit := by
    unfold maxLimit
    exact_mod_cast hw.le_max
  rw [hw.limit, pageLimit, min_eq_left hle]

/-- How a response follows from the rows that are asked for. -/
structure Answers (pg : Postgres κ) (n : ℕ) (bound : Option (ℤ ×ₗ κ)) (rows : List StoredShot)
    (page : ShotsPage) : Prop where
  data : page.data = (Keyset.page (orderKey pg) n bound rows).map StoredShot.toResponse
  has_more : page.paging.has_more = decide (n < (Keyset.behind (orderKey pg) bound rows).length)
  next_cursor : n < (Keyset.behind (orderKey pg) bound rows).length →
    page.paging.next_cursor = (Keyset.page (orderKey pg) n bound rows).getLast?.map fun last =>
      encodeCursor last.captured_at_utc last.canonical_shot_id

theorem answers_respond {select : Select} (hlimit : select.limit = .finite n)
    (bound : Option (ℤ ×ₗ κ)) (rows : List StoredShot) :
    Answers pg n bound rows
      (respond query select (Keyset.page (orderKey pg) (n + 1) bound rows)) := by
  have hmore : exceeds (Keyset.page (orderKey pg) (n + 1) bound rows).length select.limit =
      decide (n < (Keyset.behind (orderKey pg) bound rows).length) := by
    rw [hlimit, exceeds_natCast, decide_eq_decide]
    exact Keyset.lt_length_page_succ
  by_cases hall : n < (Keyset.behind (orderKey pg) bound rows).length
  · rw [decide_eq_true hall] at hmore
    have hslice : slice (Keyset.page (orderKey pg) (n + 1) bound rows) select.limit =
        Keyset.page (orderKey pg) n bound rows := by
      rw [hlimit, slice_natCast, Keyset.take_page_succ]
    exact ⟨by simp only [respond, hmore, if_true, hslice],
      by simp only [respond, hmore, hall, decide_true],
      fun _ => by simp only [respond, hmore, if_true, hslice]⟩
  · rw [decide_eq_false hall] at hmore
    refine ⟨?_, by simp only [respond, hmore, hall, decide_false], fun h => absurd h hall⟩
    rw [← Keyset.page_succ_of_all hall]
    simp only [respond, hmore, Bool.false_eq_true, if_false]

/-- The conditions of the query, once its parameters have been read. -/
theorem filter_requested {select : Select} (hvendor : select.vendor = filter.vendor)
    (hclub : select.club = given query.club)
    (horiginals : select.onlyOriginals = !query.include_near_duplicates.getD false)
    (shots : List StoredShot) :
    (shots.filter fun row => Matches select (since * 1000) (until_ * 1000)
      (given filter.canonical_user_id) (given filter.vendor_user_id) row) =
        shots.filter fun row => Requested filter query since until_ row := by
  refine List.filter_congr fun row _ => decide_eq_decide.mpr ?_
  rw [Matches, Requested, hvendor, hclub, horiginals, Bool.not_eq_true']

/-- What a request of a walk is answered. -/
theorem executeQuery_eq (hlimit : pageLimit query.limit = .finite n)
    (hwindow : windowAt parseDate now query = some (since, until_))
    (hpg : pg.Documented) (ha : Accepted pg filter query since until_)
    (hnow : -maxTimeValue ≤ now ∧ now ≤ maxTimeValue) {cursor : Option String}
    {bound : Option (ℤ ×ₗ κ)} (hc : CursorAt pg cursor bound) (shots : List StoredShot) :
    ∃ page, executeQuery pg parseDate now shots filter { query with cursor } = .ok page ∧
      Answers pg n bound (shots.filter fun row => Requested filter query since until_ row)
        page := by
  obtain ⟨params, hparams, hbound⟩ := hc.bound hpg
  obtain ⟨hstart, hend⟩ := windowAt_eq_some.mp hwindow
  obtain ⟨select, hselect⟩ : ∃ select : Select, select = {
      since, until_
      canonical_user_id := given filter.canonical_user_id
      vendor := filter.vendor
      vendor_user_id := given filter.vendor_user_id
      club := given query.club
      onlyOriginals := !query.include_near_duplicates.getD false
      cursor := params
      limit := pageLimit query.limit } := ⟨_, rfl⟩
  have hlimit : select.limit = .finite n := by rw [hselect, hlimit]
  have hbuild : buildSelect parseDate now filter { query with cursor } = .ok select :=
    buildSelect_eq_ok.mpr ⟨now, since, until_, params, isoOf_eq_ok.mpr ⟨hnow, rfl⟩, hstart, hend,
      ha.club, hparams, hselect⟩
  have hrun : select.run pg shots = some (Keyset.page (orderKey pg) (n + 1) bound
      (shots.filter fun row => Requested filter query since until_ row)) := by
    have hvendor : select.vendor = filter.vendor := by rw [hselect]
    have hclub : select.club = given query.club := by rw [hselect]
    have horiginals : select.onlyOriginals = !query.include_near_duplicates.getD false := by
      rw [hselect]
    rw [run_eq_some, ← filter_requested hvendor hclub horiginals]
    refine ⟨_, _, _, _, bound, n + 1, ?_, ?_, ?_, ?_, ?_, hlimit ▸ limitClause_natCast n, rfl⟩
    all_goals rw [hselect]
    exacts [ha.start, ha.stop, ha.user, ha.vendorUser, hbound]
  exact ⟨_, executeQuery_eq_ok.mpr ⟨select, _, hbuild, hrun, rfl⟩, answers_respond hlimit bound _⟩

theorem Windowed.executeQuery_eq (hw : Windowed parseDate query since until_ n)
    (hpg : pg.Documented) (ha : Accepted pg filter query since until_)
    (hnow : -maxTimeValue ≤ now ∧ now ≤ maxTimeValue) {cursor : Option String}
    {bound : Option (ℤ ×ₗ κ)} (hc : CursorAt pg cursor bound) (shots : List StoredShot) :
    ∃ page, executeQuery pg parseDate now shots filter { query with cursor } = .ok page ∧
      Answers pg n bound (shots.filter fun row => Requested filter query since until_ row) page :=
  Shots.executeQuery_eq hw.pageLimit_eq (hw.windowAt_eq now) hpg ha hnow hc shots

/-! ### The walk -/

variable (filter query since until_) in
/-- The rows of the table a request asks for. -/
def ShotsTable.requested (table : ShotsTable) : List StoredShot :=
  table.rows.filter fun row => Requested filter query since until_ row

theorem ShotsTable.mem_requested {table : ShotsTable} {row : StoredShot} :
    row ∈ table.requested filter query since until_ ↔
      row ∈ table.rows ∧ Requested filter query since until_ row := by
  rw [ShotsTable.requested, List.mem_filter, decide_eq_true_eq]

variable (parseDate filter query) in
/-- The rows of the table that the request it is the table of asks for. -/
def ShotsTable.asked (request : ℤ × ShotsTable) : List StoredShot :=
  request.2.rows.filter fun row => Asked parseDate request.1 filter query row

theorem ShotsTable.asked_eq {table : ShotsTable}
    (hwindow : windowAt parseDate now query = some (since, until_)) :
    ShotsTable.asked parseDate filter query (now, table) =
      table.requested filter query since until_ :=
  List.filter_congr fun _ _ => decide_eq_decide.mpr (asked_iff hwindow)

theorem Windowed.map_asked (hw : Windowed parseDate query since until_ n)
    (requests : List (ℤ × ShotsTable)) :
    requests.map (ShotsTable.asked parseDate filter query) =
      requests.map fun request => request.2.requested filter query since until_ :=
  List.map_congr_left fun request _ => ShotsTable.asked_eq (hw.windowAt_eq request.1)

theorem ShotsTable.mem_asked {request : ℤ × ShotsTable} {row : StoredShot} :
    row ∈ ShotsTable.asked parseDate filter query request ↔
      row ∈ request.2.rows ∧ Asked parseDate request.1 filter query row := by
  rw [ShotsTable.asked, List.mem_filter, decide_eq_true_eq]

theorem StoredShot.capturedAt_of_milliseconds {row : StoredShot} (h : row.microseconds = 0) :
    row.capturedAt = row.captured_at_utc * 1000 := by
  rw [StoredShot.capturedAt, h]
  exact Int.add_zero _

omit [LinearOrder κ] in
/-- The cursor made from a row that is asked for stands for the row's key. -/
theorem cursorAt_last (ha : Accepted pg filter query since until_) {table : ShotsTable}
    (hms : table.MillisecondPrecision) {last : StoredShot}
    (hlast : last ∈ table.requested filter query since until_) :
    CursorAt pg (some (encodeCursor last.captured_at_utc last.canonical_shot_id))
      (some (orderKey pg last)) := by
  obtain ⟨hrow, hlow, hhigh, _⟩ := ShotsTable.mem_requested.mp hlast
  have hcaptured := StoredShot.capturedAt_of_milliseconds (hms last hrow)
  have hbounds := ha.bounds
  rw [orderKey, hcaptured]
  rw [hcaptured] at hlow hhigh
  exact .after (by omega) (table.ids_ne_empty last hrow) (table.ids_characters last hrow)

/-- A walk through the pages is a walk of keyset pagination over the rows that are asked for. -/
theorem PageWalk.toWalk (hlimit : pageLimit query.limit = .finite n) (hone : 1 ≤ n)
    (hpg : pg.Documented) {cursor : Option String} {requests : List (ℤ × ShotsTable)}
    {pages : List (List ShotWithoutPayload)}
    (h : PageWalk pg parseDate filter query cursor requests pages)
    (hms : ∀ request ∈ requests, request.2.MillisecondPrecision) {bound : Option (ℤ ×ₗ κ)}
    (hc : CursorAt pg cursor bound) :
    ∃ walked, Keyset.Walk (orderKey pg) n bound
        (requests.map (ShotsTable.asked parseDate filter query)) walked ∧
      pages = walked.map fun page => page.map StoredShot.toResponse := by
  induction h generalizing bound with
  | @last cursor now table page response has_more =>
      obtain ⟨hnow, since, until_, hwindow, ha⟩ := accepted_of_executeQuery hpg response
      obtain ⟨page', hpage', hanswers⟩ :=
        executeQuery_eq hlimit hwindow hpg ha hnow hc table.rows
      obtain rfl := Except.ok.inj (response.symm.trans hpage')
      have hall := of_decide_eq_false (hanswers.has_more.symm.trans has_more)
      rw [List.map_singleton, ShotsTable.asked_eq hwindow]
      exact ⟨_, .last (Nat.not_lt.mp hall), by rw [hanswers.data]; rfl⟩
  | @next cursor now table page requests pages response has_more tail ih =>
      obtain ⟨hnow, since, until_, hwindow, ha⟩ := accepted_of_executeQuery hpg response
      obtain ⟨page', hpage', hanswers⟩ :=
        executeQuery_eq hlimit hwindow hpg ha hnow hc table.rows
      obtain rfl := Except.ok.inj (response.symm.trans hpage')
      have hmore := of_decide_eq_true (hanswers.has_more.symm.trans has_more)
      have hne := Keyset.page_ne_nil (Nat.lt_of_lt_of_le Nat.zero_lt_one hone) hmore
      have hlast := List.getLast?_eq_some_getLast hne
      have hcursor := hanswers.next_cursor hmore
      rw [hlast, Option.map_some] at hcursor
      -- The cursor of the page stands for the key of its last row.
      have hmem := (Keyset.mem_behind.mp (Keyset.mem_behind_of_page (List.getLast_mem hne))).1
      have hafter := cursorAt_last ha (hms _ List.mem_cons_self) hmem
      obtain ⟨walked, hwalk, rfl⟩ :=
        ih (fun request hr => hms request (List.mem_cons_of_mem _ hr)) (hcursor ▸ hafter)
      rw [List.map_cons, ShotsTable.asked_eq hwindow]
      exact ⟨_, .next hmore hlast hwalk, by rw [hanswers.data]; rfl⟩

/-- A walk of keyset pagination over the rows that are asked for gives a walk through the pages. -/
theorem PageWalk.of_keyset (hlimit : pageLimit query.limit = .finite n) (hpg : pg.Documented)
    {requests : List (ℤ × ShotsTable)}
    (ha : ∀ request ∈ requests, ∃ since until_,
      windowAt parseDate request.1 query = some (since, until_) ∧
        Accepted pg filter query since until_)
    (hms : ∀ request ∈ requests, request.2.MillisecondPrecision)
    (hclock : ∀ request ∈ requests, -maxTimeValue ≤ request.1 ∧ request.1 ≤ maxTimeValue)
    {bound : Option (ℤ ×ₗ κ)} {walked : List (List StoredShot)}
    (h : Keyset.Walk (orderKey pg) n bound
      (requests.map (ShotsTable.asked parseDate filter query)) walked)
    {cursor : Option String} (hc : CursorAt pg cursor bound) :
    PageWalk pg parseDate filter query cursor requests
      (walked.map fun page => page.map StoredShot.toResponse) := by
  generalize htables : requests.map (ShotsTable.asked parseDate filter query) = tables at h
  induction h generalizing requests cursor with
  | @last bound rows hall =>
      obtain ⟨⟨now, table⟩, rest, rfl, rfl, hrest⟩ := List.map_eq_cons_iff.mp htables
      obtain rfl := List.map_eq_nil_iff.mp hrest
      have hnow := hclock _ List.mem_cons_self
      obtain ⟨since, until_, hwindow, ha⟩ := ha _ List.mem_cons_self
      rw [ShotsTable.asked_eq hwindow] at hall ⊢
      obtain ⟨page, hpage, hanswers⟩ :=
        executeQuery_eq hlimit hwindow hpg ha hnow hc table.rows
      have hwalk := PageWalk.last hpage
        (hanswers.has_more.trans (decide_eq_false (Nat.not_lt.mpr hall)))
      rwa [hanswers.data] at hwalk
  | @next bound rows last tables pages hmore hlast tail ih =>
      obtain ⟨⟨now, table⟩, rest, rfl, rfl, hrest⟩ := List.map_eq_cons_iff.mp htables
      have hnow := hclock _ List.mem_cons_self
      obtain ⟨since, until_, hwindow, haccepted⟩ := ha _ List.mem_cons_self
      rw [ShotsTable.asked_eq hwindow] at hmore hlast ⊢
      obtain ⟨page, hpage, hanswers⟩ :=
        executeQuery_eq hlimit hwindow hpg haccepted hnow hc table.rows
      have hcursor := hanswers.next_cursor hmore
      have hlast' : (Keyset.page (orderKey pg) n bound (table.rows.filter fun row =>
        Requested filter query since until_ row)).getLast? = some last := hlast
      rw [hlast', Option.map_some] at hcursor
      have hmem := (Keyset.mem_behind.mp
        (Keyset.mem_behind_of_page (List.mem_of_getLast? hlast))).1
      have hafter := cursorAt_last haccepted (hms _ List.mem_cons_self) hmem
      have htail := ih (fun r hr => ha r (List.mem_cons_of_mem _ hr))
        (fun r hr => hms r (List.mem_cons_of_mem _ hr))
        (fun r hr => hclock r (List.mem_cons_of_mem _ hr)) hafter hrest
      have hwalk := PageWalk.next hpage (hanswers.has_more.trans (decide_eq_true hmore))
        (hcursor ▸ htail)
      rwa [hanswers.data] at hwalk

/-- A walk of keyset pagination over a table that stays as it is gives a walk through the pages. -/
theorem PageWalk.of_walk (hw : Windowed parseDate query since until_ n) (hpg : pg.Documented)
    (ha : Accepted pg filter query since until_) {table : ShotsTable}
    (hms : table.MillisecondPrecision) {m : ℕ} {bound : Option (ℤ ×ₗ κ)}
    {walked : List (List StoredShot)}
    (h : Keyset.Walk (orderKey pg) n bound
      (List.replicate m (table.requested filter query since until_)) walked)
    {clock : ℕ → ℤ} (hclock : ∀ k, -maxTimeValue ≤ clock k ∧ clock k ≤ maxTimeValue)
    {cursor : Option String} (hc : CursorAt pg cursor bound) :
    ∃ pages, PageWalk pg parseDate filter query cursor
      ((List.range m).map fun k => (clock k, table)) pages := by
  have hwalk : Keyset.Walk (orderKey pg) n bound (((List.range m).map fun k => (clock k, table)).map
      fun request => request.2.requested filter query since until_) walked := by
    rw [List.map_map]
    show Keyset.Walk _ _ _ ((List.range m).map fun _ =>
      table.requested filter query since until_) _
    rwa [List.map_const', List.length_range]
  rw [← hw.map_asked] at hwalk
  refine ⟨_, .of_keyset hw.pageLimit_eq hpg
    (fun request _ => ⟨since, until_, hw.windowAt_eq request.1, ha⟩)
    (fun request hr => ?_) (fun request hr => ?_) hwalk hc⟩
  · obtain ⟨k, _, rfl⟩ := List.mem_map.mp hr
    exact hms
  · obtain ⟨k, _, rfl⟩ := List.mem_map.mp hr
    exact hclock k

/-- What comes after what on the pages. -/
def After (pg : Postgres κ) (a b : ShotWithoutPayload) : Prop :=
  b.captured_at_utc < a.captured_at_utc ∨ b.captured_at_utc = a.captured_at_utc ∧
    pg.sortKey b.canonical_shot_id < pg.sortKey a.canonical_shot_id

theorem after_of_orderKey_lt {a b : StoredShot} (ha : a.microseconds = 0) (hb : b.microseconds = 0)
    (h : orderKey pg b < orderKey pg a) : After pg a.toResponse b.toResponse := by
  rw [orderKey, orderKey, Prod.Lex.toLex_lt_toLex, StoredShot.capturedAt_of_milliseconds ha,
    StoredShot.capturedAt_of_milliseconds hb] at h
  refine h.imp (fun hlt => ?_) (fun ⟨heq, hlt⟩ => ⟨?_, hlt⟩)
  · show b.captured_at_utc < a.captured_at_utc
    omega
  · show b.captured_at_utc = a.captured_at_utc
    omega

omit [LinearOrder κ] in
theorem orderKey_nodup (hpg : pg.Documented) (table : ShotsTable) (p : StoredShot → Bool) :
    ((table.rows.filter p).map (orderKey pg)).Nodup := by
  have hids : ((table.rows.filter p).map fun row => row.canonical_shot_id).Nodup :=
    table.primaryKey.sublist (List.filter_sublist.map _)
  refine List.Nodup.of_map (fun key => (ofLex key).2) ?_
  rw [List.map_map]
  have hcomp : ((fun key : ℤ ×ₗ κ => (ofLex key).2) ∘ orderKey pg) =
      pg.sortKey ∘ fun row : StoredShot => row.canonical_shot_id := rfl
  rw [hcomp, ← List.map_map]
  exact hids.map hpg.sortKey_injective

/-- One row of a table that grows has an id only. -/
theorem eq_of_id_eq {requests : List (ℤ × ShotsTable)}
    (hgrow : requests.Pairwise fun r r' => r.2.rows ⊆ r'.2.rows) {r r' : ℤ × ShotsTable}
    (hr : r ∈ requests) (hr' : r' ∈ requests) {a b : StoredShot} (ha : a ∈ r.2.rows)
    (hb : b ∈ r'.2.rows) (hid : a.canonical_shot_id = b.canonical_shot_id) : a = b := by
  have : Std.Symm fun r r' : ℤ × ShotsTable => r.2.rows ⊆ r'.2.rows ∨ r'.2.rows ⊆ r.2.rows :=
    ⟨fun _ _ h => h.symm⟩
  have hcomparable := (hgrow.imp fun h => Or.inl h : requests.Pairwise fun r r' =>
    r.2.rows ⊆ r'.2.rows ∨ r'.2.rows ⊆ r.2.rows).forall_of_forall
      (fun r _ => .inl (List.Subset.refl _)) hr hr'
  obtain hsub | hsub := hcomparable
  · exact List.inj_on_of_nodup_map r'.2.primaryKey (hsub ha) hb hid
  · exact List.inj_on_of_nodup_map r.2.primaryKey ha (hsub hb) hid

/-- What the pages of a walk list, while shots are being inserted. -/
theorem PageWalk.complete (hw : Windowed parseDate query since until_ n) (hpg : pg.Documented)
    {requests : List (ℤ × ShotsTable)} {pages : List (List ShotWithoutPayload)}
    (h : PageWalk pg parseDate filter query none requests pages)
    (hms : ∀ request ∈ requests, request.2.MillisecondPrecision)
    (hgrow : requests.Pairwise fun r r' => r.2.rows ⊆ r'.2.rows) :
    pages.flatten.Pairwise (After pg) ∧
      (pages.flatten.map fun shot => shot.canonical_shot_id).Nodup ∧
      ∀ row, (∀ request ∈ requests, row ∈ request.2.rows) →
        Requested filter query since until_ row → row.toResponse ∈ pages.flatten := by
  obtain ⟨walked, hwalk, rfl⟩ := h.toWalk hw.pageLimit_eq hw.one_le hpg hms .start
  rw [hw.map_asked] at hwalk
  have hkeys : ∀ rows ∈ requests.map fun request => request.2.requested filter query since until_,
      (rows.map (orderKey pg)).Nodup := by
    intro rows hrows
    obtain ⟨request, _, rfl⟩ := List.mem_map.mp hrows
    exact orderKey_nodup hpg request.2 _
  have hstored : ∀ row ∈ walked.flatten, ∃ request ∈ requests, row ∈ request.2.rows := by
    intro row hrow
    obtain ⟨rows, hrows, hmem⟩ := hwalk.exists_table hrow
    obtain ⟨request, hrequest, rfl⟩ := List.mem_map.mp hrows
    exact ⟨request, hrequest, (ShotsTable.mem_requested.mp hmem).1⟩
  have horder := hwalk.pairwise hkeys
  have hflatten : (walked.map fun page => page.map StoredShot.toResponse).flatten =
      walked.flatten.map StoredShot.toResponse := List.map_flatten.symm
  rw [hflatten]
  refine ⟨?_, ?_, fun row hrow hrequested => ?_⟩
  · refine List.pairwise_map.mpr (horder.imp_of_mem fun {a b} ha hb hlt => ?_)
    obtain ⟨r, hr, ha⟩ := hstored a ha
    obtain ⟨r', hr', hb⟩ := hstored b hb
    exact after_of_orderKey_lt (hms r hr a ha) (hms r' hr' b hb) hlt
  · rw [List.map_map]
    refine List.pairwise_map.mpr (horder.imp_of_mem fun {a b} ha hb hlt hid => ?_)
    obtain ⟨r, hr, ha⟩ := hstored a ha
    obtain ⟨r', hr', hb⟩ := hstored b hb
    exact absurd (eq_of_id_eq hgrow hr hr' ha hb hid ▸ hlt) (lt_irrefl _)
  · refine List.mem_map_of_mem (hwalk.mem hkeys (fun rows hrows => ?_) (by simp))
    obtain ⟨request, hrequest, rfl⟩ := List.mem_map.mp hrows
    exact ShotsTable.mem_requested.mpr ⟨hrow request hrequest, hrequested⟩

end

/-- What a listing in pages of `n` shots promises. While shots are inserted, the
pages up to the last one are in strictly descending order, list no shot twice,
and list every shot once that is there, and asked for, all the time. Without
insertions there is a last page, at whatever times the requests are made. -/
structure PagesComplete {κ : Type} [LinearOrder κ] (pg : Postgres κ) (parseDate : String → Option ℤ)
    (filter : ShotsFilter) (query : ShotsQuery) (since until_ : ℤ) : Prop where
  listed (requests : List (ℤ × ShotsTable)) (pages : List (List ShotWithoutPayload))
    (walk : PageWalk pg parseDate filter query none requests pages)
    (precision : ∀ request ∈ requests, request.2.MillisecondPrecision)
    (insertions : requests.Pairwise fun r r' => r.2.rows ⊆ r'.2.rows) :
    pages.flatten.Pairwise (After pg) ∧
      (pages.flatten.map fun shot => shot.canonical_shot_id).Nodup ∧
      ∀ row, (∀ request ∈ requests, row ∈ request.2.rows) →
        Requested filter query since until_ row → row.toResponse ∈ pages.flatten ∧
          (pages.flatten.map fun shot => shot.canonical_shot_id).count row.canonical_shot_id = 1
  ends (table : ShotsTable) (clock : ℕ → ℤ) (precision : table.MillisecondPrecision)
    (dates : ∀ k, -maxTimeValue ≤ clock k ∧ clock k ≤ maxTimeValue)
    (valid : ∃ page, executeQuery pg parseDate (clock 0) table.rows filter
      { query with cursor := none } = .ok page) :
    ∃ m pages, PageWalk pg parseDate filter query none
      ((List.range m).map fun k => (clock k, table)) pages

theorem pages_complete {κ : Type} [LinearOrder κ] {pg : Postgres κ} (hpg : pg.Documented)
    {parseDate : String → Option ℤ} {query : ShotsQuery} {since until_ : ℤ} {n : ℕ}
    (hw : Windowed parseDate query since until_ n) (filter : ShotsFilter) :
    PagesComplete pg parseDate filter query since until_ where
  listed requests pages h hms hgrow := by
    obtain ⟨horder, hnodup, hlisted⟩ := h.complete hw hpg hms hgrow
    refine ⟨horder, hnodup, fun row hrow hrequested => ?_⟩
    have hmem := hlisted row hrow hrequested
    exact ⟨hmem, List.count_eq_one_of_mem hnodup (List.mem_map_of_mem hmem)⟩
  ends table clock hms hclock hvalid := by
    obtain ⟨page, hpage⟩ := hvalid
    have hwalk : ∃ m walked, Keyset.Walk (orderKey pg) n none
        (List.replicate m (table.requested filter query since until_)) walked :=
      Keyset.Walk.exists_of_const (Nat.lt_of_lt_of_le Nat.zero_lt_one hw.one_le) none _
    obtain ⟨m, walked, hwalk⟩ := hwalk
    obtain ⟨pages, hpages⟩ :=
      PageWalk.of_walk hw hpg (hw.accepted hpg hpage).2 hms hwalk hclock .start
    exact ⟨m, pages, hpages⟩

/-! ### A day in pages of one shot -/

/-- A drive by golfer-1, as it is read. -/
def storedDrive (ulid : String) (payload : Webhooks.TrackproPayload) : StoredShot :=
  { Webhooks.driveShot Webhooks.driveSha256 ulid payload 1710498670000 with
    canonical_user_id := some "golfer-1", microseconds := 0 }

/-- A drive in the minute after. -/
def nextDrive : StoredShot :=
  storedDrive "01HS0N8R9M0000000000000003"
    (Webhooks.drivePayload ⟨"tp-2024-03-15-00000003", by decide⟩
      ⟨"2024-03-15T10:31:05Z", ⟨2024, 3, 15, 10, 31, 5, 0, none⟩, by decide, by decide⟩)

/-- Date-times as `Date` reads them. -/
def scanDate (text : String) : Option ℤ := (scanDateTime text).map DateTimeParts.timeValue

def drivesTable : ShotsTable where
  rows := [storedDrive Webhooks.firstId Webhooks.firstDrive,
    storedDrive Webhooks.secondId Webhooks.secondDrive]
  primaryKey := by decide +kernel
  ids_ne_empty := by decide +kernel
  ids_characters := by decide +kernel

/-- The table with the drive that comes in between two requests. -/
def grownTable : ShotsTable where
  rows := drivesTable.rows ++ [nextDrive]
  primaryKey := by decide +kernel
  ids_ne_empty := by decide +kernel
  ids_characters := by decide +kernel

def dayFilter : ShotsFilter :=
  { canonical_user_id := some "golfer-1", vendor := none, vendor_user_id := none }

/-- A day in pages of one shot. -/
def dayListing : ShotsQuery :=
  { since := some "2024-03-15T00:00:00Z", until_ := some "2024-03-16T00:00:00Z", club := none
    cursor := none, limit := some (.finite 1), include_near_duplicates := none }

def dayRequests : List (ℤ × ShotsTable) :=
  [(1710498610000, drivesTable), (1710498670000, grownTable)]

theorem windowed_day : Windowed scanDate dayListing 1710460800000 1710547200000 1 :=
  { since := ⟨_, rfl, rfl⟩, until_ := ⟨_, rfl, rfl⟩, limit := rfl, one_le := le_rfl,
    le_max := by decide }

theorem accepted_day :
    Accepted Postgres.ofStrings dayFilter dayListing 1710460800000 1710547200000 :=
  { start := by decide +kernel, stop := by decide +kernel, bounds := by decide, user := rfl,
    vendorUser := rfl, club := rfl }

/-- The rows that the requests ask for. -/
def dayRows : List (List StoredShot) :=
  dayRequests.map fun request =>
    request.2.requested dayFilter dayListing 1710460800000 1710547200000

theorem more_day : 1 < (Keyset.behind (orderKey Postgres.ofStrings) none
    (dayRows.headD [])).length := by
  decide +kernel

theorem walk_day : ∃ walked, Keyset.Walk (orderKey Postgres.ofStrings) 1 none dayRows walked ∧
    (walked.map fun page => page.map fun row => row.canonical_shot_id) =
      [[Webhooks.secondId], [Webhooks.firstId]] :=
  ⟨_, .next more_day (List.getLast?_eq_some_getLast (Keyset.page_ne_nil Nat.one_pos more_day))
    (.last (by decide +kernel)), by decide +kernel⟩

/-- The two drives that are there all the time are on a page each. -/
theorem pages_complete_day :
    PagesComplete Postgres.ofStrings scanDate dayFilter dayListing 1710460800000 1710547200000 ∧
    ∃ pages, PageWalk Postgres.ofStrings scanDate dayFilter dayListing none dayRequests pages ∧
      (pages.map fun page => page.map fun shot => shot.canonical_shot_id) =
        [[Webhooks.secondId], [Webhooks.firstId]] := by
  refine ⟨pages_complete Postgres.documented_ofStrings windowed_day _, ?_⟩
  obtain ⟨walked, hwalk, hlisted⟩ := walk_day
  have hasked : Keyset.Walk (orderKey Postgres.ofStrings) 1 none
      (dayRequests.map (ShotsTable.asked scanDate dayFilter dayListing)) walked := by
    rw [windowed_day.map_asked]
    exact hwalk
  refine ⟨_, .of_keyset windowed_day.pageLimit_eq Postgres.documented_ofStrings
    (fun request _ => ⟨_, _, windowed_day.windowAt_eq request.1, accepted_day⟩)
    (show ∀ request ∈ dayRequests, ∀ row ∈ request.2.rows, row.microseconds = 0 by decide +kernel)
    (by decide) hasked .start, ?_⟩
  rw [List.map_map, ← hlisted]
  exact List.map_congr_left fun page _ => List.map_map

end PureplayIngest.Shots
