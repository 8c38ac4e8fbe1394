import PureplayIngest.Ingestion.ContentHash
import PureplayIngest.Migrations.ShotsTable
import PureplayIngest.Shared.Kysely.Types

/-!
The statements of `ShotRepository`. Each is what one round trip to the
database does to the tables; `upsertIfNew` is one transaction and so one step
as well.

A query with `LIMIT 1` returns one of the rows that come first in its order.
Which of several it is, is not determined, so the origin query gives the list
of the rows it may return.
-/

namespace PureplayIngest.Ingestion

open Shared Shared.Domain Shared.Kysely Migrations

structure UpsertResult where
  inserted : Bool
  canonical_shot_id : String
  deriving DecidableEq

/-- The key the unique index `shots_vendor_idempotency_key` is on. -/
def shotKey (shot : ShotWithoutPayload) : Vendor × String := (shot.vendor, shot.idempotency_key)

def findByIdempotencyKey (db : Database) (key : Vendor × String) : Option NormalisedShot :=
  db.shots.find? fun row => shotKey row.toShotWithoutPayload = key

/-- `DEFAULT` values of an `outbox_events` row, and the event of a shot. -/
def Database.insertOutboxEvent (db : Database) (shot : NormalisedShot) : Database :=
  { db with
    outbox_events := db.outbox_events ++
      [{ id := db.nextEventId, event_type := "shot.persisted",
         payload := shot.toShotWithoutPayload, created_at := db.now }]
    nextEventId := db.nextEventId + 1 }

/-- A row whose id is taken, or which is a duplicate of a row that does not
exist, violates the primary key or the foreign key. -/
def violatesKeys (db : Database) (shot : ShotWithoutPayload) : Prop :=
  (∃ row ∈ db.shots, row.canonical_shot_id = shot.canonical_shot_id) ∨
    ∃ o ∈ shot.duplicate_of, o ≠ shot.canonical_shot_id ∧
      ∀ row ∈ db.shots, row.canonical_shot_id ≠ o

instance (db : Database) (shot : ShotWithoutPayload) : Decidable (violatesKeys db shot) :=
  inferInstanceAs (Decidable (_ ∨ _))

/-- The transaction of `upsertIfNew`; `none` when a statement of it fails and
it is rolled back. The row's own constraints are checked before the conflict
on the key is. -/
def upsertIfNew (db : Database) (shot : NormalisedShot) : Option (Database × UpsertResult) :=
  if ShotAccepted shot then
    match findByIdempotencyKey db (shotKey shot.toShotWithoutPayload) with
    | some existing => some (db, ⟨false, existing.canonical_shot_id⟩)
    | none =>
        if violatesKeys db shot.toShotWithoutPayload then none
        else some (Database.insertOutboxEvent { db with shots := db.shots ++ [shot] } shot,
          ⟨true, shot.canonical_shot_id⟩)
  else none

def nearDedupeWindowSeconds : ℤ := 60

/-- The rows the origin query selects from, for a shot whose window has the
given bounds. -/
def originRows (sha256 : String → String) (db : Database) (shot : ShotWithoutPayload)
    (lowerBound upperBound prevMinuteUtc : ℤ) : List NormalisedShot :=
  let adjacentHash := computeContentHash sha256 (hashInputAt shot prevMinuteUtc)
  db.shots.filter fun row =>
    row.vendor = shot.vendor ∧ row.vendor_user_id = shot.vendor_user_id ∧
      (row.content_hash = shot.content_hash ∨ row.content_hash = adjacentHash) ∧
      row.canonical_shot_id ≠ shot.canonical_shot_id ∧
      lowerBound ≤ row.captured_at_utc ∧ row.captured_at_utc ≤ upperBound

/-- `ORDER BY captured_at_utc ASC LIMIT 1`: the rows that may come first. -/
def earliest (rows : List NormalisedShot) : List NormalisedShot :=
  rows.filter fun row => ∀ other ∈ rows, row.captured_at_utc ≤ other.captured_at_utc

/-- What the SELECT of `checkAndFlagNearDuplicates` may return. -/
def originCandidates (sha256 : String → String) (db : Database) (shot : ShotWithoutPayload) :
    Except JsError (List NormalisedShot) := do
  let windowMs := nearDedupeWindowSeconds * 1000
  let lowerBound ← toISOString (shot.captured_at_utc - windowMs)
  let upperBound ← toISOString (shot.captured_at_utc + windowMs)
  let prevMinuteUtc ← toISOString (shot.captured_at_utc - 60000)
  return earliest (originRows sha256 db shot lowerBound upperBound prevMinuteUtc)

/-- The UPDATE of `checkAndFlagNearDuplicates`. -/
def flagDuplicate (db : Database) (canonicalShotId origin : String) : Database :=
  { db with
    shots := db.shots.map fun row =>
      if row.canonical_shot_id = canonicalShotId then { row with duplicate_of := some origin }
      else row }

/-- What `set` is given: an object of columns and their values, or a fragment made by `sql`. -/
inductive UpdateSet
  | columns (values : List (String × String))
  | sql (fragment : String)

/-- The SET list that is written: an entry for each own property of what `set`
is given. A fragment has none. -/
def UpdateSet.entries : UpdateSet → List (String × String)
  | .columns values => values
  | .sql _ => []

/-- An UPDATE, with what is in the database after it; `none` when its SET list
is empty, which the database refuses as a syntax error (42601). -/
def executeUpdate (set : UpdateSet) (updated : Database) : Option Database :=
  if set.entries = [] then none else some updated

/-- The UPDATE that is to patch the event of a shot. -/
def updateOutboxEventDuplicateOf (db : Database) (canonicalShotId duplicateOf : String) :
    Option Database :=
  executeUpdate (.sql "payload = payload || $1::jsonb")
    { db with
      outbox_events := db.outbox_events.map fun event =>
        if event.event_type = "shot.persisted" ∧
            event.payload.canonical_shot_id = canonicalShotId then
          { event with payload := { event.payload with duplicate_of := some duplicateOf } }
        else event }

def recordIngestionFailure (db : Database) (failure : IngestionFailure) : Database :=
  { db with ingestion_failures := db.ingestion_failures ++ [failure] }

def hasExcessiveClockSkew (capturedAtUtc receivedAtUtc : ℤ) : Bool :=
  let maxPastSkewSeconds := 86400
  let maxFutureSkewSeconds := 300
  let deltaMs := capturedAtUtc - receivedAtUtc
  deltaMs > maxFutureSkewSeconds * 1000 ∨ deltaMs < -(maxPastSkewSeconds * 1000)

/-! ### The tables, as far as shots are concerned -/

/-- The rows of `shots`, and type and payload of the events. -/
structure Tables where
  shots : List NormalisedShot
  events : List (String × ShotWithoutPayload)

def tablesOf (db : Database) : Tables :=
  ⟨db.shots, db.outbox_events.map fun event => (event.event_type, event.payload)⟩

def Database.insertShot (db : Database) (row : NormalisedShot) : Database :=
  Database.insertOutboxEvent { db with shots := db.shots ++ [row] } row

theorem tablesOf_insertShot (db : Database) (row : NormalisedShot) :
    tablesOf (Database.insertShot db row) = ⟨(tablesOf db).shots ++ [row],
      (tablesOf db).events ++ [("shot.persisted", row.toShotWithoutPayload)]⟩ := by
  simp [tablesOf, Database.insertShot, Database.insertOutboxEvent]

/-! ### What a statement does -/

/-- No event is ever patched: its fragment leaves the SET list empty. -/
theorem updateOutboxEventDuplicateOf_refused (db : Database)
    (canonicalShotId duplicateOf : String) :
    updateOutboxEventDuplicateOf db canonicalShotId duplicateOf = none := rfl

/-- Either the key was there and nothing changed, or row and event were added. -/
inductive UpsertCases (db : Database) (shot : NormalisedShot) (db' : Database) :
    UpsertResult → Prop
  | duplicate (existing : NormalisedShot) (mem : existing ∈ db.shots)
      (key : shotKey existing.toShotWithoutPayload = shotKey shot.toShotWithoutPayload)
      (eq : db' = db) : UpsertCases db shot db' ⟨false, existing.canonical_shot_id⟩
  | inserted
      (fresh : ∀ row ∈ db.shots,
        shotKey row.toShotWithoutPayload ≠ shotKey shot.toShotWithoutPayload)
      (id : ∀ row ∈ db.shots, row.canonical_shot_id ≠ shot.canonical_shot_id)
      (eq : db' = Database.insertOutboxEvent { db with shots := db.shots ++ [shot] } shot) :
      UpsertCases db shot db' ⟨true, shot.canonical_shot_id⟩

theorem upsertIfNew_cases {db db' : Database} {shot : NormalisedShot} {result : UpsertResult}
    (h : upsertIfNew db shot = some (db', result)) :
    ShotAccepted shot ∧ UpsertCases db shot db' result := by
  rw [upsertIfNew] at h
  split at h
  case isFalse => exact absurd h (by simp)
  case isTrue haccepted =>
    refine ⟨haccepted, ?_⟩
    cases hfind : findByIdempotencyKey db (shotKey shot.toShotWithoutPayload) with
    | some existing =>
        obtain ⟨rfl, rfl⟩ : db = db' ∧ ⟨false, existing.canonical_shot_id⟩ = result := by
          simpa [hfind] using h
        exact .duplicate existing (List.mem_of_find?_eq_some hfind)
          (by simpa using List.find?_some hfind) rfl
    | none =>
        simp only [hfind] at h
        split at h
        · exact absurd h (by simp)
        · rename_i hkeys
          obtain ⟨rfl, rfl⟩ := Prod.mk.inj (Option.some.inj h)
          refine .inserted (fun row hrow => ?_) (fun row hrow hid => ?_) rfl
          · simpa using List.find?_eq_none.mp hfind row hrow
          · exact hkeys (.inl ⟨row, hrow, hid⟩)

/-- The transaction depends on the rows of `shots` only. -/
theorem upsertIfNew_of_shots {db other : Database} (h : other.shots = db.shots)
    (shot : NormalisedShot) :
    upsertIfNew other shot = (upsertIfNew db shot).map fun (_, result) =>
      (if result.inserted then
        Database.insertOutboxEvent { other with shots := other.shots ++ [shot] } shot else other,
        result) := by
  have hkeys : violatesKeys other shot.toShotWithoutPayload ↔
      violatesKeys db shot.toShotWithoutPayload := by
    rw [violatesKeys, violatesKeys, h]
  simp only [upsertIfNew, findByIdempotencyKey, h, hkeys]
  split
  · split
    · rfl
    · split <;> rfl
  · rfl

/-- A minute before and a minute after the shot are dates. -/
def InDates (t : ℤ) : Prop := -maxTimeValue + 60000 ≤ t ∧ t ≤ maxTimeValue - 60000

theorem originCandidates_of_dates (sha256 : String → String) (db : Database)
    {shot : ShotWithoutPayload} (h : InDates shot.captured_at_utc) :
    ∃ origins, originCandidates sha256 db shot = .ok origins := by
  obtain ⟨hmin, hmax⟩ := h
  unfold maxTimeValue at hmin hmax
  have hdate {t : ℤ} (hlow : -8640000000000000 ≤ t) (hhigh : t ≤ 8640000000000000) :
      toISOString t = .ok t := if_pos ⟨hlow, hhigh⟩
  have hlower := hdate (t := shot.captured_at_utc - 60 * 1000) (by omega) (by omega)
  have hupper := hdate (t := shot.captured_at_utc + 60 * 1000) (by omega) (by omega)
  have hprev := hdate (t := shot.captured_at_utc - 60000) (by omega) (by omega)
  rw [originCandidates, nearDedupeWindowSeconds, hlower, hupper, hprev]
  exact ⟨_, rfl⟩

/-- What the origin query of a shot returns when its bounds are dates. -/
theorem originCandidates_ok {sha256 : String → String} {db : Database} {shot : ShotWithoutPayload}
    {origins : List NormalisedShot} (h : originCandidates sha256 db shot = .ok origins) :
    origins = earliest (originRows sha256 db shot (shot.captured_at_utc - 60000)
      (shot.captured_at_utc + 60000) (shot.captured_at_utc - 60000)) := by
  rw [originCandidates] at h
  cases hlower : toISOString (shot.captured_at_utc - nearDedupeWindowSeconds * 1000) with
  | error e => simp [hlower, bind, Except.bind] at h
  | ok lower =>
      cases hupper : toISOString (shot.captured_at_utc + nearDedupeWindowSeconds * 1000) with
      | error e => simp [hlower, hupper, bind, Except.bind] at h
      | ok upper =>
          cases hprev : toISOString (shot.captured_at_utc - 60000) with
          | error e => simp [hlower, hupper, hprev, bind, Except.bind] at h
          | ok prev =>
              obtain rfl := toISOString_ok hlower
              obtain rfl := toISOString_ok hupper
              obtain rfl := toISOString_ok hprev
              simp only [hlower, hupper, hprev, bind, Except.bind, pure, Except.pure,
                Except.ok.injEq] at h
              exact h.symm

theorem mem_originRows {sha256 : String → String} {db : Database} {shot : ShotWithoutPayload}
    {lower upper prev : ℤ} {row : NormalisedShot} :
    row ∈ originRows sha256 db shot lower upper prev ↔
      row ∈ db.shots ∧ row.vendor = shot.vendor ∧ row.vendor_user_id = shot.vendor_user_id ∧
        (row.content_hash = shot.content_hash ∨
          row.content_hash = computeContentHash sha256 (hashInputAt shot prev)) ∧
        row.canonical_shot_id ≠ shot.canonical_shot_id ∧
        lower ≤ row.captured_at_utc ∧ row.captured_at_utc ≤ upper := by
  simp only [originRows, List.mem_filter, decide_eq_true_eq]

theorem mem_earliest {rows : List NormalisedShot} {row : NormalisedShot} :
    row ∈ earliest rows ↔
      row ∈ rows ∧ ∀ other ∈ rows, row.captured_at_utc ≤ other.captured_at_utc := by
  simp only [earliest, List.mem_filter, decide_eq_true_eq]

/-- The origin query made for `shot` can find `row`: it is another shot of the
user, by hash and by time. -/
structure CanFind (sha256 : String → String) (shot row : ShotWithoutPayload) : Prop where
  vendor : row.vendor = shot.vendor
  vendor_user_id : row.vendor_user_id = shot.vendor_user_id
  content_hash : row.content_hash = shot.content_hash ∨
    row.content_hash = computeContentHash sha256 (hashInputAt shot (shot.captured_at_utc - 60000))
  canonical_shot_id : row.canonical_shot_id ≠ shot.canonical_shot_id
  lower : shot.captured_at_utc - 60000 ≤ row.captured_at_utc
  upper : row.captured_at_utc ≤ shot.captured_at_utc + 60000

theorem canFind_iff {sha256 : String → String} {shot row : ShotWithoutPayload} :
    CanFind sha256 shot row ↔
      row.vendor = shot.vendor ∧ row.vendor_user_id = shot.vendor_user_id ∧
        (row.content_hash = shot.content_hash ∨ row.content_hash =
          computeContentHash sha256 (hashInputAt shot (shot.captured_at_utc - 60000))) ∧
        row.canonical_shot_id ≠ shot.canonical_shot_id ∧
        shot.captured_at_utc - 60000 ≤ row.captured_at_utc ∧
        row.captured_at_utc ≤ shot.captured_at_utc + 60000 :=
  ⟨fun h => ⟨h.vendor, h.vendor_user_id, h.content_hash, h.canonical_shot_id, h.lower, h.upper⟩,
    fun ⟨h₁, h₂, h₃, h₄, h₅, h₆⟩ => ⟨h₁, h₂, h₃, h₄, h₅, h₆⟩⟩

instance (sha256 : String → String) (shot row : ShotWithoutPayload) :
    Decidable (CanFind sha256 shot row) := decidable_of_iff' _ canFind_iff

/-- The origin query returns stored rows that it can find. -/
theorem originCandidates_mem {sha256 : String → String} {db : Database} {shot : ShotWithoutPayload}
    {origins : List NormalisedShot} (h : originCandidates sha256 db shot = .ok origins)
    {origin : NormalisedShot} (hmem : origin ∈ origins) :
    origin ∈ db.shots ∧ CanFind sha256 shot origin.toShotWithoutPayload := by
  rw [originCandidates_ok h, mem_earliest, mem_originRows, ← canFind_iff] at hmem
  exact hmem.1

end PureplayIngest.Ingestion
