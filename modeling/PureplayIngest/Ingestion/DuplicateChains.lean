import PureplayIngest.Ingestion.NearDuplicates

/-!
Where the link of a flagged shot leads, when shots are processed one after
the other.

The origin of a shot is the earliest match in the window of that shot, and it
may have been flagged itself. A link leads to a row that was stored before, so
the links end at a row that is not flagged, but not always at once.
-/

namespace PureplayIngest.Ingestion

open Shared Shared.Domain Shared.Kysely Identity Lib Webhooks Relation

/-- Shots of the parsers are processed one after the other, from an empty table
on, each by attempts that return or throw. In between anything may happen that
leaves the table as it is. -/
inductive Sequential (deps : Deps) : World → Prop
  | start {w : World} (hempty : w.db.shots = []) : Sequential deps w
  | process {w w' : World} {job : ShotJob} (hw : Sequential deps w)
      (hparsed : ParserProduced deps.sha256 job.normalisedShot) (h : Completes deps job w w') :
      Sequential deps w'
  | other {w w' : World} (hw : Sequential deps w) (hshots : w'.db.shots = w.db.shots) :
      Sequential deps w'

def WithinWindow (a b : NormalisedShot) : Prop :=
  a.captured_at_utc - b.captured_at_utc ≤ 60000 ∧ b.captured_at_utc - a.captured_at_utc ≤ 60000

instance (a b : NormalisedShot) : Decidable (WithinWindow a b) :=
  inferInstanceAs (Decidable (_ ∧ _))

/-- One row is flagged as a duplicate of the other, both of them being stored. -/
structure FlaggedAs (rows : List NormalisedShot) (row origin : NormalisedShot) : Prop where
  row_mem : row ∈ rows
  origin_mem : origin ∈ rows
  duplicate_of : row.duplicate_of = some origin.canonical_shot_id
  window : WithinWindow row origin

/-- Rows in the order in which they were inserted. -/
inductive Chained : List NormalisedShot → Prop
  | empty : Chained []
  | shown {rows : List NormalisedShot} {row : NormalisedShot} (hrows : Chained rows)
      (hrow : row.duplicate_of = none) : Chained (rows ++ [row])
  | hidden {rows : List NormalisedShot} {row origin : NormalisedShot} (hrows : Chained rows)
      (horigin : origin ∈ rows) (hrow : row.duplicate_of = some origin.canonical_shot_id)
      (hwindow : WithinWindow row origin) : Chained (rows ++ [row])

variable {deps : Deps}

theorem chained_of_sequential {w : World} (h : Sequential deps w) : Chained w.db.shots := by
  induction h with
  | start hempty =>
      rw [hempty]
      exact .empty
  | process hw hparsed h ih =>
      obtain hsame | ⟨row, hinserts, ⟨_, hshots⟩ | ⟨o, hpicks, hshots⟩⟩ := h.shots
      · rw [hsame]
        exact ih
      · rw [hshots]
        exact .shown ih
          ((duplicateOf_resolves hinserts.resolves).trans hparsed.fresh.duplicate_of)
      · rw [hshots]
        obtain ⟨origin, hmem, horigin, rfl⟩ := hpicks.originOf
        obtain ⟨c, rfl⟩ := hinserts.resolves.eq
        obtain ⟨_, _, _, hlower, hupper⟩ := horigin
        exact .hidden ih hmem rfl ⟨by simp only; omega, by simp only; omega⟩
  | other hw hshots ih =>
      rw [hshots]
      exact ih

theorem FlaggedAs.mono {rows others : List NormalisedShot} (hsub : rows ⊆ others)
    {row origin : NormalisedShot} (h : FlaggedAs rows row origin) : FlaggedAs others row origin :=
  ⟨hsub h.row_mem, hsub h.origin_mem, h.duplicate_of, h.window⟩

/-- The links lead from the row to one that is not flagged. -/
def LeadsToShown (rows : List NormalisedShot) (row : NormalisedShot) : Prop :=
  ∃ shown ∈ rows, shown.duplicate_of = none ∧ ReflTransGen (FlaggedAs rows) row shown

theorem LeadsToShown.mono {rows others : List NormalisedShot} (hsub : rows ⊆ others)
    {row : NormalisedShot} (h : LeadsToShown rows row) : LeadsToShown others row := by
  obtain ⟨shown, hshown, hnone, hpath⟩ := h
  exact ⟨shown, hsub hshown, hnone,
    ReflTransGen.mono (fun _ _ => FlaggedAs.mono hsub) _ _ hpath⟩

theorem Chained.leadsToShown {rows : List NormalisedShot} (h : Chained rows) :
    ∀ row ∈ rows, LeadsToShown rows row := by
  induction h with
  | empty => exact fun row hrow => absurd hrow List.not_mem_nil
  | @shown rows last hrows hlast ih =>
      intro row hrow
      obtain hrow | hrow := List.mem_append.mp hrow
      · exact (ih row hrow).mono (List.subset_append_left _ _)
      · obtain rfl := List.mem_singleton.mp hrow
        exact ⟨row, by simp, hlast, .refl⟩
  | @hidden rows last origin hrows horigin hlast hwindow ih =>
      have hsub : rows ⊆ rows ++ [last] := List.subset_append_left _ _
      intro row hrow
      obtain hrow | hrow := List.mem_append.mp hrow
      · exact (ih row hrow).mono hsub
      · obtain rfl := List.mem_singleton.mp hrow
        obtain ⟨shown, hshown, hnone, hpath⟩ := (ih origin horigin).mono hsub
        exact ⟨shown, hshown, hnone, .head ⟨by simp, hsub horigin, hlast, hwindow⟩ hpath⟩

theorem Chained.origin {rows : List NormalisedShot} (h : Chained rows) {row : NormalisedShot}
    (hrow : row ∈ rows) {o : String} (ho : row.duplicate_of = some o) :
    ∃ origin, origin.canonical_shot_id = o ∧ FlaggedAs rows row origin := by
  obtain ⟨shown, _, hnone, hpath⟩ := h.leadsToShown row hrow
  cases hpath using ReflTransGen.head_induction_on with
  | refl => simp [hnone] at ho
  | head hflagged _ =>
      obtain rfl := Option.some.inj (hflagged.duplicate_of.symm.trans ho)
      exact ⟨_, rfl, hflagged⟩

/-- A flagged shot has its origin stored, within its window, and at the end of
the links that go on from there a shot that is not flagged. -/
theorem duplicates_lead_to_shown {w : World} (h : Sequential deps w) {row : NormalisedShot}
    (hrow : row ∈ w.db.shots) {o : String} (ho : row.duplicate_of = some o) :
    ∃ origin, origin.canonical_shot_id = o ∧ FlaggedAs w.db.shots row origin ∧
      LeadsToShown w.db.shots origin := by
  have hchained := chained_of_sequential h
  obtain ⟨origin, hid, hflagged⟩ := hchained.origin hrow ho
  exact ⟨origin, hid, hflagged, hchained.leadsToShown origin hflagged.origin_mem⟩

/-! ### Three drives, each fifty seconds after the one before -/

def middleDrive : TrackproPayload :=
  drivePayload ⟨"tp-2024-03-15-00000032", by decide⟩
    ⟨"2024-03-15T10:30:50Z", ⟨2024, 3, 15, 10, 30, 50, 0, none⟩, by decide, by decide⟩

def lastDrive : TrackproPayload :=
  drivePayload ⟨"tp-2024-03-15-00000064", by decide⟩
    ⟨"2024-03-15T10:31:40Z", ⟨2024, 3, 15, 10, 31, 40, 0, none⟩, by decide, by decide⟩

def thirdId : String := "01HS0N8R9M0000000000000003"

def minuteDeps : Deps := ⟨minuteSha256, fun _ => none⟩

def afterDrive (ulid : String) (payload : TrackproPayload) (w : World) (n : ℕ)
    (e : AttemptEnd) : World :=
  (afterAttempt minuteDeps (minuteJob ulid payload) w n e).1

theorem Sequential.drive {ulid : String} {payload : TrackproPayload} {w : World} {n : ℕ}
    {e : AttemptEnd} (hw : Sequential minuteDeps w)
    (h : Ends minuteDeps (minuteJob ulid payload) w n e) :
    Sequential minuteDeps (afterDrive ulid payload w n e) :=
  .process hw parserProduced_driveShot (completes_afterAttempt h)

def afterOneDrive : World := afterDrive firstId firstDrive Service.freshWorld 5 .returns

def afterTwoDrives : World := afterDrive secondId middleDrive afterOneDrive 4 .throws

def afterThreeDrives : World := afterDrive thirdId lastDrive afterTwoDrives 4 .throws

theorem threeDrives :
    Ends minuteDeps (minuteJob firstId firstDrive) Service.freshWorld 5 .returns ∧
      Ends minuteDeps (minuteJob secondId middleDrive) afterOneDrive 4 .throws ∧
      Ends minuteDeps (minuteJob thirdId lastDrive) afterTwoDrives 4 .throws ∧
      afterThreeDrives.db.shots.map (fun row => (row.canonical_shot_id, row.duplicate_of)) =
        [(firstId, none), (secondId, some firstId), (thirdId, some secondId)] := by
  decide +kernel

theorem sequential_threeDrives : Sequential minuteDeps afterThreeDrives := by
  obtain ⟨hfirst, hsecond, hthird, _⟩ := threeDrives
  exact (Sequential.start rfl).drive hfirst |>.drive hsecond |>.drive hthird

/-- The last drive is flagged as a duplicate of the middle one, which is flagged itself. -/
theorem origin_not_shown :
    ¬ ∀ (deps : Deps) (w : World), Sequential deps w → ∀ row ∈ w.db.shots, ∀ o,
      row.duplicate_of = some o → ∃ origin ∈ w.db.shots, origin.canonical_shot_id = o ∧
        origin.duplicate_of = none ∧ WithinWindow row origin := by
  intro h
  have hrows := threeDrives.2.2.2
  obtain ⟨row, hrow, heq⟩ := List.mem_map.mp (hrows ▸ by simp :
    (thirdId, some secondId) ∈ afterThreeDrives.db.shots.map
      fun row => (row.canonical_shot_id, row.duplicate_of))
  obtain ⟨origin, horigin, hid, hnone, _⟩ := h minuteDeps afterThreeDrives sequential_threeDrives
    row hrow secondId (Prod.mk.inj heq).2
  have hmem : (secondId, none) ∈ afterThreeDrives.db.shots.map
      fun row => (row.canonical_shot_id, row.duplicate_of) :=
    List.mem_map.mpr ⟨origin, horigin, by rw [hid, hnone]⟩
  rw [hrows] at hmem
  exact absurd hmem (by decide)

theorem duplicates_lead_to_shown_threeDrives :
    ∃ row ∈ afterThreeDrives.db.shots, row.canonical_shot_id = thirdId ∧
      ∃ origin, origin.canonical_shot_id = secondId ∧
        FlaggedAs afterThreeDrives.db.shots row origin ∧
        LeadsToShown afterThreeDrives.db.shots origin := by
  obtain ⟨row, hrow, heq⟩ := List.mem_map.mp (threeDrives.2.2.2 ▸ by simp :
    (thirdId, some secondId) ∈ afterThreeDrives.db.shots.map
      fun row => (row.canonical_shot_id, row.duplicate_of))
  exact ⟨row, hrow, (Prod.mk.inj heq).1,
    duplicates_lead_to_shown sequential_threeDrives hrow (Prod.mk.inj heq).2⟩

end PureplayIngest.Ingestion
