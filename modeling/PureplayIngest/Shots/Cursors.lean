import PureplayIngest.Shots.ShotsController

/-!
What a client can send as a cursor.

A cursor comes back as it was given out. Of any other text the fields are only
checked to be there: a field of another type, or a string that is no timestamp,
goes on to the database, and what it refuses ends the request with an error
that nothing handles.
-/

namespace PureplayIngest.Shots

open Shared Shared.Domain Lib

/-- The JSON document in the text of a cursor. -/
def cursorDocument (cursor : String) : Option Json :=
  JsonText.parse (Utf8.decode (Base64Url.decode cursor.toList))

section

variable {κ : Type} (pg : Postgres κ)

/-- The cursor is refused, or consists of two strings with a timestamp first. -/
def Validated (cursor : String) : Prop :=
  decodeCursor cursor = .error invalidCursorError ∨
    ∃ t id, decodeCursor cursor = .ok (.str t, .str id) ∧ (pg.timestamptz (.str t)).isSome

/-- When both fields of the document are there, they are a timestamp and a
string of characters other than 0. -/
def Harmless (document : Json) : Prop :=
  ∀ c ∈ (property document "captured_at_utc").filter truthy,
    ∀ i ∈ (property document "canonical_shot_id").filter truthy,
      (∃ t, c = .str t ∧ (pg.timestamptz (.str t)).isSome) ∧
        ∃ id, i = .str id ∧ '\x00' ∉ id.toList

end

theorem decodeCursor_eq_ok {cursor : String} {c i : Json} :
    decodeCursor cursor = .ok (c, i) ↔ ∃ document, cursorDocument cursor = some document ∧
      (property document "captured_at_utc").filter truthy = some c ∧
      (property document "canonical_shot_id").filter truthy = some i := by
  rw [decodeCursor, ← cursorDocument]
  cases cursorDocument cursor with
  | none => simp
  | some document =>
      simp only [Option.some.injEq, exists_eq_left']
      split
      · rename_i c' i' hc hi
        rw [hc, hi, Except.ok.injEq, Prod.mk.injEq, Option.some.injEq, Option.some.injEq]
      · rename_i hmissing
        refine iff_of_false (by simp) ?_
        rintro ⟨hc, hi⟩
        exact hmissing c i hc hi

theorem decodeCursor_eq_error {cursor : String} {e : DomainError}
    (h : decodeCursor cursor = .error e) : e = invalidCursorError := by
  rw [decodeCursor] at h
  split at h
  · exact (Except.error.inj h).symm
  · split at h
    · exact absurd h (by simp)
    · exact (Except.error.inj h).symm

/-! ### A request with a cursor -/

section

variable {κ : Type} [LinearOrder κ] {pg : Postgres κ} {parseDate : String → Option ℤ} {now : ℤ}
  {shots : List StoredShot} {filter : ShotsFilter} {query : ShotsQuery} {page : ShotsPage}
  {select : Select} {rows : List StoredShot}

theorem cursorParams_some {cursor : String} (h : cursor ≠ "") :
    cursorParams (some cursor) = ((decodeCursor cursor).mapError .domain).map some := by
  rw [cursorParams, given_some h]

omit [LinearOrder κ] in
theorem boundCursor_eq_none {c i : Json} :
    boundCursor pg (some (c, i)) = none ↔ pg.timestamptz c = none ∨ pg.varchar i = none := by
  rw [boundCursor]
  cases pg.timestamptz c with
  | none => simp
  | some t => cases pg.varchar i <;> simp

/-- The cursor is the last thing that can go wrong before the query is run. -/
theorem buildSelect_cursor (cursor : Option String)
    (h : buildSelect parseDate now filter { query with cursor := none } = .ok select) :
    buildSelect parseDate now filter { query with cursor } =
      (cursorParams cursor).map fun cursor => { select with cursor } := by
  obtain ⟨nowIso, since, until_, none', hnow, hsince, huntil, hclub, hnone, rfl⟩ :=
    buildSelect_eq_ok.mp h
  have hsince' : windowStart parseDate now { query with cursor } = .ok since := hsince
  have huntil' : windowEnd parseDate nowIso { query with cursor } = .ok until_ := huntil
  have hok {α β : Type} (a : α) (f : α → Except ShotsError β) : (Except.ok a >>= f) = f a := rfl
  cases hcursor : cursorParams cursor with
  | error e =>
      simp only [buildSelect, hnow, hok, hsince', huntil', hclub, hcursor]
      rfl
  | ok params =>
      simp only [buildSelect, hnow, hok, hsince', huntil', hclub, hcursor]
      rfl

/-- Nor is anything but the cursor refused when the query is run. -/
theorem run_cursor_eq_none (h : select.run pg shots = some rows)
    (cursor : Option (Json × Json)) :
    ({ select with cursor } : Select).run pg shots = none ↔ boundCursor pg cursor = none := by
  obtain ⟨since, until_, c, u, _, limit, hs, hu, hc, hv, _, hlimit, _⟩ := run_eq_some.mp h
  simp only [Select.run, hs, hu, hc, hv, hlimit, Option.bind_eq_bind, Option.bind_some]
  cases boundCursor pg cursor <;> simp

theorem executeQuery_eq_database (h : buildSelect parseDate now filter query = .ok select) :
    executeQuery pg parseDate now shots filter query = .error .database ↔
      select.run pg shots = none := by
  simp only [executeQuery, h, bind, Except.bind, pure, Except.pure]
  cases select.run pg shots with
  | none => exact iff_of_true rfl rfl
  | some rows => exact iff_of_false (by simp) (by simp)

/-- The database refuses a request that has succeeded without a cursor for
what the cursor carries. -/
theorem executeQuery_cursor_database
    (h : executeQuery pg parseDate now shots filter { query with cursor := none } = .ok page)
    (cursor : String) :
    executeQuery pg parseDate now shots filter { query with cursor := some cursor } =
        .error .database ↔
      ∃ p, decodeCursor cursor = .ok p ∧ boundCursor pg (some p) = none := by
  obtain ⟨select, rows, hselect, hrun, _⟩ := executeQuery_eq_ok.mp h
  have hbuild := buildSelect_cursor (some cursor) hselect
  by_cases hempty : cursor = ""
  · -- An empty cursor is not decoded, and refused if it were.
    subst hempty
    have hdecoded : decodeCursor "" = .error invalidCursorError := rfl
    rw [executeQuery_eq_database hbuild, run_cursor_eq_none hrun, hdecoded]
    simp [boundCursor]
  · rw [cursorParams_some hempty] at hbuild
    cases hdecoded : decodeCursor cursor with
    | error e =>
        rw [hdecoded] at hbuild
        have herror : executeQuery pg parseDate now shots filter
            { query with cursor := some cursor } = .error (.domain e) := by
          rw [executeQuery, hbuild]
          rfl
        rw [herror]
        simp
    | ok p =>
        rw [hdecoded] at hbuild
        rw [executeQuery_eq_database hbuild, run_cursor_eq_none hrun]
        simp

end

/-! ### A cursor that is no timestamp -/

/-- The listing of one shot, without a cursor. -/
theorem executeQuery_limitParams : ∃ page,
    executeQuery Postgres.ofStrings (fun _ => none) recently [recentShot .trackpro "golfer-1"]
      golferOne { (limitParams "20").toQuery with cursor := none } = .ok page := by
  have htwenty : parseInt "20" = some 20 := by decide
  have hlimit : (limitParams "20").toQuery.limit = some (.finite (20 : ℤ)) := by
    show ((parseInt "20").map fun n : ℤ => JsNumber.finite n) = _
    rw [htwenty, Option.map_some]
  obtain ⟨page, hpage, -⟩ := (consistent_limit_iff hlimit
    (buildSelect_limitParams (fun _ => none) "20") (matching_limitSelect "20")).mpr
      (.inl (by decide))
  exact ⟨page, hpage⟩

/-- A document whose `captured_at_utc` is the string `never`. -/
def neverCursor : String :=
  String.ofList (Base64Url.encode (Utf8.encode (JsonText.stringify
    [("captured_at_utc", "never"), ("canonical_shot_id", "x")])))

example : neverCursor = "eyJjYXB0dXJlZF9hdF91dGMiOiJuZXZlciIsImNhbm9uaWNhbF9zaG90X2lkIjoieCJ9" := by
  decide +kernel

end PureplayIngest.Shots
