import PureplayIngest.Lib.Base64Url
import PureplayIngest.Lib.Keyset
import PureplayIngest.Lib.Utf8
import PureplayIngest.Shared.JsonText
import PureplayIngest.Shared.Postgres
import Mathlib.Data.Prod.Lex

/-!
`ShotsService`: the listing of shots, one page at a time.

A query is assembled from the filters that are given, where the empty string
counts as not given, and is then run. Three things are left open. `parseDate`
is what the `Date` constructor makes of a string, `pg` what the database makes
of the parameters, and `now` is the instant of the request.
-/

namespace PureplayIngest.Shots

open Shared Shared.Domain Lib

/-! ### Rows and errors -/

/-- A row of `shots`. Its `captured_at_utc` is read in milliseconds, what the
column holds below that is cut off. That the driver takes the years 1 to 99 for
others is left out. -/
structure StoredShot extends NormalisedShot where
  microseconds : Fin 1000

/-- The column `captured_at_utc`. -/
def StoredShot.capturedAt (row : StoredShot) : ℤ := row.captured_at_utc * 1000 + row.microseconds

structure DomainError where
  code : String
  message : String
  deriving DecidableEq, Repr

def invalidCursorError : DomainError :=
  ⟨"INVALID_CURSOR", "Pagination cursor is malformed or expired."⟩

def invalidDateError (field value : String) : DomainError :=
  ⟨"PAYLOAD_VALIDATION_FAILED",
    "Invalid date for '" ++ field ++ "': '" ++ value ++ "'. Must be a valid ISO-8601 datetime."⟩

def unknownVendorError (vendor : String) : DomainError :=
  ⟨"PAYLOAD_VALIDATION_FAILED", "Unknown vendor: " ++ vendor ++ ". Valid values: " ++
    ", ".intercalate (validVendors.map Vendor.toString)⟩

def unknownClubCodeError (club : String) : DomainError :=
  ⟨"PAYLOAD_VALIDATION_FAILED", "Unknown club code: " ++ club ++ ". Valid values: " ++
    ", ".intercalate (validClubCodes.map ClubCode.toString)⟩

/-- What a request can end with instead of a page. -/
inductive ShotsError
  | domain (error : DomainError)
  | js (error : JsError)
  | database
  deriving DecidableEq

/-! ### Cursors -/

def encodeCursor (captured_at_utc : ℤ) (canonical_shot_id : String) : String :=
  let text := JsonText.stringify
    [("captured_at_utc", isoString captured_at_utc), ("canonical_shot_id", canonical_shot_id)]
  String.ofList (Base64Url.encode (Utf8.encode text))

/-- What `!value` denies. Numbers this small are read as zero. -/
def truthy : Json → Bool
  | .null => false
  | .bool b => b
  | .num x => 1 / 2 ^ 1075 < |x|
  | .str s => s ≠ ""
  | .arr _ | .obj _ => true

/-- `decoded[name]` of a value `JSON.parse` gave; only objects have such properties. -/
def property (decoded : Json) (name : String) : Option Json :=
  match decoded with
  | .obj fields => (fields.find? fun field => field.1 = name).map (·.2)
  | _ => none

def decodeCursor (cursor : String) : Except DomainError (Json × Json) :=
  match JsonText.parse (Utf8.decode (Base64Url.decode cursor.toList)) with
  | none => .error invalidCursorError
  | some decoded =>
      match (property decoded "captured_at_utc").filter truthy,
        (property decoded "canonical_shot_id").filter truthy with
      | some captured_at_utc, some canonical_shot_id => .ok (captured_at_utc, canonical_shot_id)
      | _, _ => .error invalidCursorError

/-! ### Numbers -/

/-- A number; the finite ones are not rounded here. -/
inductive JsNumber
  | nan
  | negInfinity
  | finite (x : ℚ)
  | infinity
  deriving DecidableEq

def defaultWindowDays : ℤ := 30

def maxLimit : ℚ := 100

def defaultLimit : ℚ := 50

/-- `Math.min` of a number and `MAX_LIMIT`, or the default for no number. -/
def pageLimit : Option JsNumber → JsNumber
  | none | some .nan => .finite defaultLimit
  | some .negInfinity => .negInfinity
  | some (.finite x) => .finite (min x maxLimit)
  | some .infinity => .finite maxLimit

/-- `LIMIT` of `limit + 1`, which has to be an integer and not negative. -/
def limitClause : JsNumber → Option ℕ
  | .finite x => if (x + 1).den = 1 ∧ 0 ≤ (x + 1).num then some (x + 1).num.toNat else none
  | _ => none

/-- `length > limit`. -/
def exceeds (length : ℕ) : JsNumber → Bool
  | .nan | .infinity => false
  | .negInfinity => true
  | .finite x => x < length

/-- `rows.slice(0, limit)`; an end before the start counts from the back. -/
def slice {α : Type} (rows : List α) : JsNumber → List α
  | .nan | .negInfinity => []
  | .infinity => rows
  | .finite x =>
      let stop := x.num.tdiv x.den
      if 0 ≤ stop then rows.take stop.toNat else rows.take (rows.length + stop).toNat

/-! ### The query -/

structure ShotsQuery where
  since : Option String
  until_ : Option String
  club : Option String
  cursor : Option String
  limit : Option JsNumber
  include_near_duplicates : Option Bool

structure ShotsFilter where
  canonical_user_id : Option String
  vendor : Option Vendor
  vendor_user_id : Option String

/-- A string that is given and not empty. -/
def given (value : Option String) : Option String := value.filter (· ≠ "")

theorem given_some {s : String} (h : s ≠ "") : given (some s) = some s := by
  rw [given, Option.filter_some, if_pos (decide_eq_true h)]

/-- `new Date(t).toISOString()`. -/
def isoOf (t : ℤ) : Except ShotsError ℤ := (toISOString t).mapError .js

/-- A `Date` outside its range is as invalid as one that is not parsed. -/
def parseWindowDate (parseDate : String → Option ℤ) (value fieldName : String) :
    Except ShotsError ℤ :=
  match (parseDate value).filter fun t => -maxTimeValue ≤ t ∧ t ≤ maxTimeValue with
  | none => .error (.domain (invalidDateError fieldName value))
  | some t => isoOf t

/-- The conditions of the query and their parameters. -/
structure Select where
  since : ℤ
  until_ : ℤ
  canonical_user_id : Option String
  vendor : Option Vendor
  vendor_user_id : Option String
  club : Option String
  onlyOriginals : Bool
  cursor : Option (Json × Json)
  limit : JsNumber

def windowStart (parseDate : String → Option ℤ) (now : ℤ) (query : ShotsQuery) :
    Except ShotsError ℤ :=
  match given query.since with
  | some value => parseWindowDate parseDate value "since"
  | none => isoOf (now - defaultWindowDays * 86400 * 1000)

def windowEnd (parseDate : String → Option ℤ) (nowIso : ℤ) (query : ShotsQuery) :
    Except ShotsError ℤ :=
  match given query.until_ with
  | some value => parseWindowDate parseDate value "until"
  | none => .ok nowIso

def checkClub (club : Option String) : Except ShotsError Unit :=
  match given club with
  | some code =>
      if (ClubCode.ofString? code).isSome then .ok ()
      else .error (.domain (unknownClubCodeError code))
  | none => .ok ()

def cursorParams (cursor : Option String) : Except ShotsError (Option (Json × Json)) :=
  match given cursor with
  | some text => ((decodeCursor text).mapError .domain).map some
  | none => .ok none

/-- `executeQuery` up to the point where the query is run. -/
def buildSelect (parseDate : String → Option ℤ) (now : ℤ) (filter : ShotsFilter)
    (query : ShotsQuery) : Except ShotsError Select := do
  let nowIso ← isoOf now
  let since ← windowStart parseDate now query
  let until_ ← windowEnd parseDate nowIso query
  checkClub query.club
  let cursor ← cursorParams query.cursor
  return {
    since, until_
    canonical_user_id := given filter.canonical_user_id
    vendor := filter.vendor
    vendor_user_id := given filter.vendor_user_id
    club := given query.club
    onlyOriginals := !query.include_near_duplicates.getD false
    cursor
    limit := pageLimit query.limit }

/-! ### Its answer -/

section Run

variable {κ : Type} [LinearOrder κ] (pg : Postgres κ)

/-- A parameter that is sent only when the condition it belongs to is there. -/
def boundString : Option String → Option (Option String)
  | none => some none
  | some s => (pg.varchar (.str s)).map some

/-- The row a cursor compares with. -/
def boundCursor : Option (Json × Json) → Option (Option (ℤ ×ₗ κ))
  | none => some none
  | some (captured_at_utc, canonical_shot_id) => do
      let t ← pg.timestamptz captured_at_utc
      let id ← pg.varchar canonical_shot_id
      return some (toLex (t, pg.sortKey id))

/-- `ORDER BY captured_at_utc DESC, canonical_shot_id DESC`. -/
def orderKey (row : StoredShot) : ℤ ×ₗ κ :=
  toLex (row.capturedAt, pg.sortKey row.canonical_shot_id)

/-- The conditions besides the cursor, with their parameters as the database has read them. -/
def Matches (select : Select) (since until_ : ℤ) (canonical_user_id vendor_user_id : Option String)
    (row : StoredShot) : Prop :=
  since ≤ row.capturedAt ∧ row.capturedAt ≤ until_ ∧
    (∀ c ∈ canonical_user_id, row.canonical_user_id = some c) ∧
    (∀ v ∈ select.vendor, row.vendor = v) ∧
    (∀ u ∈ vendor_user_id, row.vendor_user_id = u) ∧
    (∀ c ∈ select.club, row.club_code.toString = c) ∧
    (select.onlyOriginals → row.duplicate_of = none)

instance (select : Select) (since until_ : ℤ) (canonical_user_id vendor_user_id : Option String)
    (row : StoredShot) :
    Decidable (Matches select since until_ canonical_user_id vendor_user_id row) :=
  inferInstanceAs (Decidable (_ ∧ _ ∧ _ ∧ _ ∧ _ ∧ _ ∧ _))

/-- The rows a query returns; `none` when a parameter is rejected. -/
def Select.run (select : Select) (shots : List StoredShot) : Option (List StoredShot) := do
  let since ← pg.timestamptz (.str (isoString select.since))
  let until_ ← pg.timestamptz (.str (isoString select.until_))
  let canonical_user_id ← boundString pg select.canonical_user_id
  let vendor_user_id ← boundString pg select.vendor_user_id
  let cursor ← boundCursor pg select.cursor
  let limit ← limitClause select.limit
  return Keyset.page (orderKey pg) limit cursor
    (shots.filter fun row => Matches select since until_ canonical_user_id vendor_user_id row)

end Run

structure Paging where
  next_cursor : Option String
  has_more : Bool
  limit : JsNumber
  deriving DecidableEq

structure Meta where
  since : ℤ
  until_ : ℤ
  club : Option String
  include_near_duplicates : Bool
  deriving DecidableEq

structure ShotsPage where
  data : List ShotWithoutPayload
  paging : Paging
  metadata : Meta

/-- A row of the response, without `raw_payload`. -/
def StoredShot.toResponse (row : StoredShot) : ShotWithoutPayload := row.toShotWithoutPayload

/-- `executeQuery` from where the rows have been read. -/
def respond (query : ShotsQuery) (select : Select) (rows : List StoredShot) : ShotsPage :=
  let hasMore := exceeds rows.length select.limit
  let data := if hasMore then slice rows select.limit else rows
  let nextCursor := if hasMore then
      data.getLast?.map fun last => encodeCursor last.captured_at_utc last.canonical_shot_id
    else none
  { data := data.map StoredShot.toResponse
    paging := { next_cursor := nextCursor, has_more := hasMore, limit := select.limit }
    metadata := { since := select.since, until_ := select.until_, club := query.club
                  include_near_duplicates := query.include_near_duplicates.getD false } }

section Service

variable {κ : Type} [LinearOrder κ] (pg : Postgres κ) (parseDate : String → Option ℤ) (now : ℤ)
  (shots : List StoredShot)

def executeQuery (filter : ShotsFilter) (query : ShotsQuery) : Except ShotsError ShotsPage := do
  let select ← buildSelect parseDate now filter query
  match select.run pg shots with
  | none => .error .database
  | some rows => return respond query select rows

def listByCanonicalUser (userId : String) (query : ShotsQuery) : Except ShotsError ShotsPage :=
  executeQuery pg parseDate now shots
    { canonical_user_id := some userId, vendor := none, vendor_user_id := none } query

def listByVendorUser (vendor vendorUserId : String) (query : ShotsQuery) :
    Except ShotsError ShotsPage :=
  match Vendor.ofString? vendor with
  | none => .error (.domain (unknownVendorError vendor))
  | some v => executeQuery pg parseDate now shots
      { canonical_user_id := none, vendor := some v, vendor_user_id := some vendorUserId } query

end Service

/-! ### What a request that succeeds has gone through -/

theorem bind_eq_ok {ε α β : Type} {x : Except ε α} {f : α → Except ε β} {b : β} :
    (x >>= f) = .ok b ↔ ∃ a, x = .ok a ∧ f a = .ok b := by
  cases x with
  | error e =>
      exact ⟨fun h => absurd h (by simp [bind, Except.bind]), fun ⟨a, h, _⟩ => by simp at h⟩
  | ok a => exact ⟨fun h => ⟨a, rfl, h⟩, fun ⟨a', h, hf⟩ => Except.ok.inj h ▸ hf⟩

theorem isoOf_eq_ok {t u : ℤ} :
    isoOf t = .ok u ↔ (-maxTimeValue ≤ t ∧ t ≤ maxTimeValue) ∧ u = t := by
  rw [isoOf, toISOString]
  split
  · rename_i h
    exact ⟨fun heq => ⟨h, (Except.ok.inj heq).symm⟩, fun heq => heq.2 ▸ rfl⟩
  · rename_i h
    exact ⟨fun heq => absurd heq (by simp [Except.mapError]), fun heq => absurd heq.1 h⟩

theorem buildSelect_eq_ok {parseDate : String → Option ℤ} {now : ℤ} {filter : ShotsFilter}
    {query : ShotsQuery} {select : Select} :
    buildSelect parseDate now filter query = .ok select ↔
      ∃ nowIso since until_ cursor, isoOf now = .ok nowIso ∧
        windowStart parseDate now query = .ok since ∧
        windowEnd parseDate nowIso query = .ok until_ ∧ checkClub query.club = .ok () ∧
        cursorParams query.cursor = .ok cursor ∧
        select = {
          since, until_
          canonical_user_id := given filter.canonical_user_id
          vendor := filter.vendor
          vendor_user_id := given filter.vendor_user_id
          club := given query.club
          onlyOriginals := !query.include_near_duplicates.getD false
          cursor
          limit := pageLimit query.limit } := by
  simp only [buildSelect, bind_eq_ok]
  constructor
  · rintro ⟨nowIso, hnow, since, hsince, until_, huntil, _, hclub, cursor, hcursor, h⟩
    exact ⟨nowIso, since, until_, cursor, hnow, hsince, huntil, hclub, hcursor,
      (Except.ok.inj h).symm⟩
  · rintro ⟨nowIso, since, until_, cursor, hnow, hsince, huntil, hclub, hcursor, rfl⟩
    exact ⟨nowIso, hnow, since, hsince, until_, huntil, (), hclub, cursor, hcursor, rfl⟩

section Spec

theorem timestamptz_eq_some {κ : Type} {pg : Postgres κ} (hpg : pg.Documented) {t u : ℤ}
    (ht : -maxTimeValue ≤ t ∧ t ≤ maxTimeValue)
    (h : pg.timestamptz (.str (isoString t)) = some u) :
    (minTimestamp ≤ t ∧ t ≤ maxTimestamp) ∧ u = t * 1000 := by
  rw [hpg.timestamptz_iso t ht] at h
  split at h
  · rename_i hbounds
    exact ⟨hbounds, (Option.some.inj h).symm⟩
  · exact absurd h (by simp)

theorem boundString_eq {κ : Type} {pg : Postgres κ} (hpg : pg.Documented)
    {value bound : Option String}
    (h : boundString pg value = some bound) : bound = value := by
  cases value with
  | none => exact (Option.some.inj h).symm
  | some s =>
      rw [boundString, hpg.varchar_str] at h
      split at h
      · exact absurd h (by simp)
      · exact (Option.some.inj h).symm

variable {κ : Type} [LinearOrder κ] {pg : Postgres κ} {parseDate : String → Option ℤ} {now : ℤ}
  {shots : List StoredShot} {filter : ShotsFilter} {query : ShotsQuery}

theorem run_eq_some {select : Select} {rows : List StoredShot} :
    select.run pg shots = some rows ↔
      ∃ since until_ canonical_user_id vendor_user_id cursor limit,
        pg.timestamptz (.str (isoString select.since)) = some since ∧
        pg.timestamptz (.str (isoString select.until_)) = some until_ ∧
        boundString pg select.canonical_user_id = some canonical_user_id ∧
        boundString pg select.vendor_user_id = some vendor_user_id ∧
        boundCursor pg select.cursor = some cursor ∧ limitClause select.limit = some limit ∧
        rows = Keyset.page (orderKey pg) limit cursor (shots.filter fun row =>
          Matches select since until_ canonical_user_id vendor_user_id row) := by
  simp only [Select.run, Option.bind_eq_bind, Option.bind_eq_some_iff, Option.pure_def,
    Option.some.injEq]
  constructor
  · rintro ⟨since, hs, until_, hu, c, hc, v, hv, cursor, hcursor, limit, hlimit, h⟩
    exact ⟨since, until_, c, v, cursor, limit, hs, hu, hc, hv, hcursor, hlimit, h.symm⟩
  · rintro ⟨since, until_, c, v, cursor, limit, hs, hu, hc, hv, hcursor, hlimit, h⟩
    exact ⟨since, hs, until_, hu, c, hc, v, hv, cursor, hcursor, limit, hlimit, h.symm⟩

theorem executeQuery_eq_ok {page : ShotsPage} :
    executeQuery pg parseDate now shots filter query = .ok page ↔
      ∃ select rows, buildSelect parseDate now filter query = .ok select ∧
        select.run pg shots = some rows ∧ page = respond query select rows := by
  rw [executeQuery, bind_eq_ok]
  constructor
  · rintro ⟨select, hselect, h⟩
    cases hrun : select.run pg shots with
    | none => exact absurd h (by simp [hrun])
    | some rows =>
        rw [hrun] at h
        exact ⟨select, rows, hselect, hrun, (Except.ok.inj h).symm⟩
  · rintro ⟨select, rows, hselect, hrun, rfl⟩
    exact ⟨select, hselect, by rw [hrun]; rfl⟩

end Spec

theorem mem_slice {α : Type} {rows : List α} {limit : JsNumber} {x : α} (h : x ∈ slice rows limit) :
    x ∈ rows := by
  cases limit with
  | nan => exact absurd h List.not_mem_nil
  | negInfinity => exact absurd h List.not_mem_nil
  | infinity => exact h
  | finite x =>
      rw [slice] at h
      split at h <;> exact List.mem_of_mem_take h

theorem mem_respond {query : ShotsQuery} {select : Select} {rows : List StoredShot}
    {shot : ShotWithoutPayload} (h : shot ∈ (respond query select rows).data) :
    ∃ row ∈ rows, row.toResponse = shot := by
  obtain ⟨row, hrow, heq⟩ := List.mem_map.mp h
  refine ⟨row, ?_, heq⟩
  split at hrow
  · exact mem_slice hrow
  · exact hrow

/-! ### A cursor is read back -/

theorem isoString_ne_empty (t : ℤ) : isoString t ≠ "" := by
  intro h
  have hlength : (isoChars t).length = 0 := by
    rw [← String.toList_ofList (l := isoChars t)]
    exact congrArg (fun s => s.toList.length) h
  rw [isoChars, List.length_append, List.length_append] at hlength
  simp at hlength

/-- Any two strings that are not empty are read back. -/
theorem decodeCursor_stringify {captured_at_utc id : String} (hcaptured : captured_at_utc ≠ "")
    (hid : id ≠ "") :
    decodeCursor (String.ofList (Base64Url.encode (Utf8.encode (JsonText.stringify
      [("captured_at_utc", captured_at_utc), ("canonical_shot_id", id)])))) =
        .ok (.str captured_at_utc, .str id) := by
  have hnames : (([("captured_at_utc", captured_at_utc), ("canonical_shot_id", id)] :
      List (String × String)).map (·.1)).Nodup := by
    show ["captured_at_utc", "canonical_shot_id"].Nodup
    decide
  have hparse := JsonText.parse_stringify (List.cons_ne_nil _ _) hnames
  have htruthy : ∀ s : String, s ≠ "" → truthy (.str s) = true := fun s h => decide_eq_true h
  rw [decodeCursor, String.toList_ofList,
    Base64Url.decode_encode fun b hb => Utf8.encode_lt hb, Utf8.decode_encode, hparse]
  have hfirst : property (.obj (JsonText.strings
      [("captured_at_utc", captured_at_utc), ("canonical_shot_id", id)])) "captured_at_utc" =
        some (.str captured_at_utc) := rfl
  have hshot : property (.obj (JsonText.strings
      [("captured_at_utc", captured_at_utc), ("canonical_shot_id", id)])) "canonical_shot_id" =
        some (.str id) := rfl
  simp only [hfirst, hshot, Option.filter_some, htruthy _ hid, htruthy _ hcaptured, if_true]

theorem decodeCursor_encodeCursor (t : ℤ) {id : String} (hid : id ≠ "") :
    decodeCursor (encodeCursor t id) = .ok (.str (isoString t), .str id) :=
  decodeCursor_stringify (isoString_ne_empty t) hid

end PureplayIngest.Shots
