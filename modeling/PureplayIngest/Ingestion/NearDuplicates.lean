import PureplayIngest.Ingestion.Retries

/-!
Two near-duplicates, processed one after the other.

The origin query compares the hash of a shot with the shot's own minute and
the one before it. A shot whose near-duplicate was captured in the minute
after it, and processed first, does not find it: which of the two comes first
matters unless both fall in the same minute.
-/

namespace PureplayIngest.Ingestion

open Shared Shared.Domain Shared.Kysely Identity Lib Webhooks

/-- The minute of a time value, counted from the epoch. -/
def minuteOf (t : ℤ) : ℤ := t / 60000

/-- What makes two shots near-duplicates of each other. -/
structure NearDuplicate (a b : NormalisedShot) : Prop where
  vendor : a.vendor = b.vendor
  vendor_user_id : a.vendor_user_id = b.vendor_user_id
  idempotency_key : a.idempotency_key ≠ b.idempotency_key
  club_code : a.club_code = b.club_code
  ball_speed_mps : round a.ball_speed_mps 1 = round b.ball_speed_mps 1
  launch_angle_deg : round a.launch_angle_deg 1 = round b.launch_angle_deg 1
  carry_m : round a.carry_m 0 = round b.carry_m 0
  lateral_m : round a.lateral_m 0 = round b.lateral_m 0
  years : (0 ≤ yearOf a.captured_at_utc ∧ yearOf a.captured_at_utc ≤ 9999) ∧
    (0 ≤ yearOf b.captured_at_utc ∧ yearOf b.captured_at_utc ≤ 9999)
  window : a.captured_at_utc - b.captured_at_utc ≤ 60000 ∧
    b.captured_at_utc - a.captured_at_utc ≤ 60000

/-- What is hashed for a shot taken to be captured at `t`. -/
def textAt (shot : NormalisedShot) (t : ℤ) : String :=
  hashText (hashInputAt shot.toShotWithoutPayload t)

/-- The hash of `a` is not by accident one of the two hashes `b` is compared by. -/
def NoCollision (sha256 : String → String) (a b : NormalisedShot) : Prop :=
  ∀ t ∈ [b.captured_at_utc, b.captured_at_utc - 60000],
    sha256 (textAt a a.captured_at_utc) = sha256 (textAt b t) →
      textAt a a.captured_at_utc = textAt b t

instance (sha256 : String → String) (a b : NormalisedShot) : Decidable (NoCollision sha256 a b) :=
  inferInstanceAs (Decidable (∀ t ∈ _, _))

def OfUser (shot row : NormalisedShot) : Prop :=
  row.vendor = shot.vendor ∧ row.vendor_user_id = shot.vendor_user_id

instance (shot row : NormalisedShot) : Decidable (OfUser shot row) :=
  inferInstanceAs (Decidable (_ ∧ _))

/-- The shot's own row is stored. -/
def Stored (db : Database) (shot : NormalisedShot) : Prop :=
  ∃ row ∈ db.shots, OfUser shot row ∧
    shotKey row.toShotWithoutPayload = shotKey shot.toShotWithoutPayload

instance (db : Database) (shot : NormalisedShot) : Decidable (Stored db shot) :=
  inferInstanceAs (Decidable (∃ row ∈ db.shots, _))

/-- Attempts at a job, none of them stopped between insert and flag. The last one
has returned or thrown. -/
def Completes (deps : Deps) (job : ShotJob) (w w' : World) : Prop :=
  ∃ as s, (retries deps job).Run NoLateRestart (w, process job) as (w', s) ∧ s.isOver = true

/-- Attempts at a job that have stored its shot. -/
def Processes (deps : Deps) (job : ShotJob) (w w' : World) : Prop :=
  Completes deps job w w' ∧ Stored w'.db job.normalisedShot

/-- Of the rows of the user, the second is flagged as a duplicate of the first. -/
def FlagsSecond (db : Database) (first second : NormalisedShot) : Prop :=
  (db.shots.filter (OfUser first ·)).map (fun row => (row.canonical_shot_id, row.duplicate_of)) =
    [(first.canonical_shot_id, none), (second.canonical_shot_id, some first.canonical_shot_id)]

instance (db : Database) (first second : NormalisedShot) :
    Decidable (FlagsSecond db first second) :=
  inferInstanceAs (Decidable (_ = _))

/-! ### The texts that are hashed -/

variable {a b : NormalisedShot}

/-- The texts of near-duplicates differ in nothing but the minute. -/
theorem textAt_eq_iff (h : NearDuplicate a b) (t : ℤ) :
    textAt a a.captured_at_utc = textAt b t ↔ minuteOf a.captured_at_utc = minuteOf t := by
  rw [minuteOf, minuteOf, ← isoChars_take_eq_iff h.years.1]
  have hbucket : minuteBucket (isoString a.captured_at_utc) = minuteBucket (isoString t) ↔
      (isoChars a.captured_at_utc).take 16 = (isoChars t).take 16 := by
    rw [minuteBucket, minuteBucket, isoString, isoString, String.toList_ofList,
      String.toList_ofList]
    exact String.ofList_inj
  rw [← hbucket]
  simp only [textAt, hashText, hashParts, hashInputAt, ← h.vendor_user_id, ← h.club_code,
    ← h.ball_speed_mps, ← h.launch_angle_deg, ← h.carry_m, ← h.lateral_m]
  simp only [String.intercalate_cons_cons, String.append_assoc]
  rw [String.append_right_inj, String.append_right_inj, String.append_right_inj,
    String.append_right_inj, String.append_left_inj]

/-- The hash of a near-duplicate is looked for in its own minute and the one before. -/
theorem hash_matches_iff {sha256 : String → String} (h : NearDuplicate a b)
    (ha : FreshShot sha256 a.toShotWithoutPayload) (hb : FreshShot sha256 b.toShotWithoutPayload)
    (hcollision : NoCollision sha256 a b) :
    (a.content_hash = b.content_hash ∨ a.content_hash =
      computeContentHash sha256 (hashInputAt b.toShotWithoutPayload (b.captured_at_utc - 60000))) ↔
      minuteOf a.captured_at_utc ≤ minuteOf b.captured_at_utc := by
  have hhash : a.content_hash = sha256 (textAt a a.captured_at_utc) := ha.content_hash
  have hhash' : b.content_hash = sha256 (textAt b b.captured_at_utc) := hb.content_hash
  have hown : a.content_hash = b.content_hash ↔
      minuteOf a.captured_at_utc = minuteOf b.captured_at_utc := by
    rw [← textAt_eq_iff h, hhash, hhash']
    exact ⟨hcollision _ List.mem_cons_self, congrArg sha256⟩
  have hadjacent : a.content_hash = computeContentHash sha256
      (hashInputAt b.toShotWithoutPayload (b.captured_at_utc - 60000)) ↔
      minuteOf a.captured_at_utc = minuteOf (b.captured_at_utc - 60000) := by
    rw [← textAt_eq_iff h, hhash]
    exact ⟨hcollision _ (List.mem_cons_of_mem _ List.mem_cons_self), congrArg sha256⟩
  rw [hown, hadjacent]
  have hwindow := h.window
  unfold minuteOf
  omega

/-- A minute more or less is no matter in years that are written with four digits. -/
theorem inDates_of_year {t : ℤ} (h : 0 ≤ yearOf t ∧ yearOf t ≤ 9999) : InDates t := by
  have hmonth := civilFromDays_month (t / msPerDay)
  have hday := civilFromDays_day (t / msPerDay)
  have hdays := daysFromCivil_civilFromDays (t / msPerDay)
  simp only [daysFromCivil] at hdays
  unfold yearOf at h
  simp only [InDates, maxTimeValue]
  simp only [msPerDay] at *
  omega

/-! ### What an attempt at one of the two does -/

variable {deps : Deps} {job : ShotJob} {w w' : World}

/-- The rows the origin query of a job looks at: those of the user, by hash and time. -/
def OriginOf (sha256 : String → String) (shot row : NormalisedShot) : Prop :=
  OfUser shot row ∧
    (row.content_hash = shot.content_hash ∨ row.content_hash =
      computeContentHash sha256
        (hashInputAt shot.toShotWithoutPayload (shot.captured_at_utc - 60000))) ∧
    row.canonical_shot_id ≠ shot.canonical_shot_id ∧
    shot.captured_at_utc - 60000 ≤ row.captured_at_utc ∧
    row.captured_at_utc ≤ shot.captured_at_utc + 60000

theorem mem_originRows_iff {sha256 : String → String} {db : Database} {shot row : NormalisedShot} :
    row ∈ originRows sha256 db shot.toShotWithoutPayload (shot.captured_at_utc - 60000)
        (shot.captured_at_utc + 60000) (shot.captured_at_utc - 60000) ↔
      row ∈ db.shots ∧ OriginOf sha256 shot row := by
  rw [mem_originRows, OriginOf, OfUser, and_assoc]

theorem Picks.originOf {origin : String} (h : Picks deps w job origin) :
    ∃ row ∈ w.db.shots, OriginOf deps.sha256 job.normalisedShot row ∧
      origin = row.canonical_shot_id := by
  obtain ⟨rows, k, row, hrows, hrow, rfl⟩ := h
  have hmem := List.mem_of_getElem? hrow
  rw [originCandidates_ok hrows, mem_earliest, mem_originRows_iff] at hmem
  exact ⟨row, hmem.1.1, hmem.1.2, rfl⟩

/-- With one row of the user stored, no origin means that this row is none. -/
theorem NoOrigin.not_originOf (h : NoOrigin deps w job)
    (hdates : InDates job.normalisedShot.captured_at_utc) {row : NormalisedShot}
    (hrow : row ∈ w.db.shots)
    (honly : ∀ other ∈ w.db.shots, OfUser job.normalisedShot other → other = row) :
    ¬ OriginOf deps.sha256 job.normalisedShot row := by
  intro horigin
  obtain ⟨rows, hrows⟩ := originCandidates_of_dates deps.sha256 w.db hdates
  have hmem : row ∈ rows := by
    rw [originCandidates_ok hrows, mem_earliest, mem_originRows_iff]
    refine ⟨⟨hrow, horigin⟩, fun other hother => ?_⟩
    rw [mem_originRows_iff] at hother
    rw [honly other hother.1 hother.2.1]
  obtain ⟨k, hk⟩ := List.getElem?_of_mem hmem
  exact h _ ⟨rows, k, row, hrows, hk, rfl⟩

/-- What the attempts do to the rows: nothing, or they insert one and flag it if
there is an origin. -/
theorem Completes.shots (h : Completes deps job w w') :
    w'.db.shots = w.db.shots ∨ ∃ row, Inserts w job row ∧
      ((NoOrigin deps w job ∧ w'.db.shots = w.db.shots ++ [row]) ∨
        ∃ origin, Picks deps w job origin ∧
          w'.db.shots = w.db.shots ++ [{ row with duplicate_of := some origin }]) := by
  obtain ⟨as, s, hrun, hover⟩ := h
  obtain ⟨stage, hvalid, hcomplete, hw, _⟩ := stage_of_uninterrupted hrun hover
  have hshots : w'.db.shots = (stage.db w.db).shots := congrArg Tables.shots hw.tables
  cases stage with
  | untouched => exact .inl hshots
  | inserted row => exact .inr ⟨row, hvalid, .inl ⟨hcomplete, hshots⟩⟩
  | flagged row origin =>
      obtain ⟨hinserts, hpicks⟩ := hvalid
      refine .inr ⟨row, hinserts, .inr ⟨origin, hpicks, hshots.trans ?_⟩⟩
      obtain ⟨_, hcases⟩ := upsertIfNew_cases hinserts.upsert
      cases hcases with
      | inserted _ hid _ =>
          show ((w.db.shots ++ [row]).map fun r => if r.canonical_shot_id = row.canonical_shot_id
            then { r with duplicate_of := some origin } else r) = _
          rw [List.map_append, List.map_singleton, if_pos rfl]
          congr 1
          exact (List.map_congr_left fun r hr => if_neg (hid r hr)).trans (List.map_id' _)

/-- Attempts that store a shot of which no row was stored before insert it. -/
theorem Processes.inserts (h : Processes deps job w w')
    (hnew : ∀ row ∈ w.db.shots, OfUser job.normalisedShot row →
      shotKey row.toShotWithoutPayload ≠ shotKey job.normalisedShot.toShotWithoutPayload) :
    ∃ row, Inserts w job row ∧
      ((NoOrigin deps w job ∧ w'.db.shots = w.db.shots ++ [row]) ∨
        ∃ origin, Picks deps w job origin ∧
          w'.db.shots = w.db.shots ++ [{ row with duplicate_of := some origin }]) := by
  obtain ⟨hcompletes, row, hrow, huser, hkey⟩ := h
  obtain hsame | hinserts := Completes.shots hcompletes
  · exact absurd hkey (hnew row (hsame ▸ hrow) huser)
  · exact hinserts

/-! ### Both, one after the other -/

theorem NearDuplicate.ofUser_iff (h : NearDuplicate a b) (row : NormalisedShot) :
    OfUser b row ↔ OfUser a row := by
  rw [OfUser, OfUser, h.vendor, h.vendor_user_id]

theorem Resolves.ofUser {row : NormalisedShot} (h : Resolves w job row) :
    OfUser job.normalisedShot row := by
  obtain ⟨c, rfl⟩ := h.eq
  exact ⟨rfl, rfl⟩

/-- The first shot of a user is stored, and there is no origin for it. -/
theorem Processes.inserts_first (h : Processes deps job w w')
    (halone : ∀ row ∈ w.db.shots, ¬ OfUser job.normalisedShot row) :
    ∃ row, Inserts w job row ∧ w'.db.shots = w.db.shots ++ [row] := by
  obtain ⟨row, hrow, ⟨_, hshots⟩ | ⟨origin, hpicks, _⟩⟩ :=
    h.inserts fun row hrow huser => absurd huser (halone row hrow)
  · exact ⟨row, hrow, hshots⟩
  · obtain ⟨row, hrow, horigin, _⟩ := hpicks.originOf
    exact absurd horigin.1 (halone row hrow)

/-- Two rows of a user, stored after rows of others. -/
theorem filter_ofUser {shot r₁ r₂ : NormalisedShot} {rows : List NormalisedShot}
    (halone : ∀ row ∈ rows, ¬ OfUser shot row) (h₁ : OfUser shot r₁) (h₂ : OfUser shot r₂) :
    (rows ++ [r₁] ++ [r₂]).filter (OfUser shot ·) = [r₁, r₂] := by
  have hrows : rows.filter (OfUser shot ·) = [] := by
    simpa [List.filter_eq_nil_iff] using halone
  simp [List.filter_append, hrows, h₁, h₂]

/-- What the rows of the user are in the end is told by the link of the second. -/
theorem flagsSecond_iff {first second : ShotJob} {w₀ w₁ : World} {db : Database}
    {rows : List NormalisedShot} {r₁ r₂ : NormalisedShot} {dup : Option String}
    (hnear : NearDuplicate first.normalisedShot second.normalisedShot)
    (hfresh : FreshShot deps.sha256 first.normalisedShot.toShotWithoutPayload)
    (halone : ∀ row ∈ rows, ¬ OfUser first.normalisedShot row) (h₁ : Resolves w₀ first r₁)
    (h₂ : Resolves w₁ second r₂)
    (hshots : db.shots = rows ++ [r₁] ++ [{ r₂ with duplicate_of := dup }]) :
    FlagsSecond db first.normalisedShot second.normalisedShot ↔
      dup = some first.normalisedShot.canonical_shot_id := by
  have huser₂ : OfUser first.normalisedShot { r₂ with duplicate_of := dup } :=
    (hnear.ofUser_iff r₂).mp h₂.ofUser
  rw [FlagsSecond, hshots, filter_ofUser halone h₁.ofUser huser₂, List.map_cons,
    List.map_singleton, duplicateOf_resolves h₁, hfresh.duplicate_of, id_resolves h₁,
    ← id_resolves h₂]
  simp

/-- The row of the first is an origin for the second when it was captured in
the minute of the second or in the one before. -/
theorem originOf_iff {row : NormalisedShot} {first : ShotJob}
    (h : NearDuplicate first.normalisedShot b)
    (ha : FreshShot deps.sha256 first.normalisedShot.toShotWithoutPayload)
    (hb : FreshShot deps.sha256 b.toShotWithoutPayload)
    (hcollision : NoCollision deps.sha256 first.normalisedShot b) (hrow : Resolves w first row)
    (hid : row.canonical_shot_id ≠ b.canonical_shot_id) :
    OriginOf deps.sha256 b row ↔
      minuteOf first.normalisedShot.captured_at_utc ≤ minuteOf b.captured_at_utc := by
  rw [← hash_matches_iff h ha hb hcollision]
  obtain ⟨c, rfl⟩ := hrow.eq
  have hwindow := h.window
  constructor
  · exact fun horigin => horigin.2.1
  · intro hhash
    exact ⟨(h.ofUser_iff _).mpr ⟨rfl, rfl⟩, hhash, hid, by simp only; omega, by simp only; omega⟩

/-- Of two near-duplicates of a user with no other shots, the one processed
second is flagged as a duplicate of the first exactly when the first was not
captured in a later minute, whether the attempts return or throw. -/
theorem second_flagged_iff {first second : ShotJob} {w₀ w₁ w₂ : World}
    (hfirstParsed : ParserProduced deps.sha256 first.normalisedShot)
    (hsecondParsed : ParserProduced deps.sha256 second.normalisedShot)
    (hnear : NearDuplicate first.normalisedShot second.normalisedShot)
    (hcollision : NoCollision deps.sha256 first.normalisedShot second.normalisedShot)
    (halone : ∀ row ∈ w₀.db.shots, ¬ OfUser first.normalisedShot row)
    (hfirst : Processes deps first w₀ w₁) (hsecond : Processes deps second w₁ w₂) :
    FlagsSecond w₂.db first.normalisedShot second.normalisedShot ↔
      minuteOf first.normalisedShot.captured_at_utc ≤
        minuteOf second.normalisedShot.captured_at_utc := by
  -- The first finds no origin, so its row is the only one of the user.
  obtain ⟨r₁, hr₁, hw₁⟩ := hfirst.inserts_first halone
  have honly : ∀ row ∈ w₁.db.shots, OfUser second.normalisedShot row → row = r₁ := by
    intro row hrow huser
    rw [hw₁, List.mem_append, List.mem_singleton] at hrow
    exact hrow.resolve_left fun hold => halone row hold ((hnear.ofUser_iff row).mp huser)
  have hkey : shotKey r₁.toShotWithoutPayload ≠
      shotKey second.normalisedShot.toShotWithoutPayload := by
    rw [shotKey_resolves hr₁.resolves]
    exact fun heq => hnear.idempotency_key (Prod.mk.inj heq).2
  obtain ⟨r₂, hr₂, hw₂⟩ := hsecond.inserts fun row hrow huser => honly row hrow huser ▸ hkey
  have hmem₁ : r₁ ∈ w₁.db.shots := by simp [hw₁]
  have hid : r₁.canonical_shot_id ≠ second.normalisedShot.canonical_shot_id := by
    obtain ⟨_, hcases⟩ := upsertIfNew_cases hr₂.upsert
    cases hcases with
    | inserted _ hid _ => exact id_resolves hr₂.resolves ▸ hid r₁ hmem₁
  have hminute :=
    originOf_iff hnear hfirstParsed.fresh hsecondParsed.fresh hcollision hr₁.resolves hid
  have hflags (dup : Option String)
      (h : w₂.db.shots = w₁.db.shots ++ [{ r₂ with duplicate_of := dup }]) :
      FlagsSecond w₂.db first.normalisedShot second.normalisedShot ↔
        dup = some first.normalisedShot.canonical_shot_id := by
    rw [hw₁] at h
    exact flagsSecond_iff hnear hfirstParsed.fresh halone hr₁.resolves hr₂.resolves h
  obtain ⟨hnone, hw₂⟩ | ⟨origin, hpicks, hw₂⟩ := hw₂
  · have hdates := inDates_of_year hnear.years.2
    have hdup : r₂.duplicate_of = none :=
      (duplicateOf_resolves hr₂.resolves).trans hsecondParsed.fresh.duplicate_of
    rw [hflags none (by rw [hw₂, ← hdup])]
    exact iff_of_false (by simp) (mt hminute.mpr (hnone.not_originOf hdates hmem₁ honly))
  · obtain ⟨row, hrow, horigin, rfl⟩ := hpicks.originOf
    obtain rfl := honly row hrow horigin.1
    rw [hflags _ hw₂, id_resolves hr₁.resolves]
    exact iff_of_true rfl (hminute.mp horigin)

/-! ### Two drives around a full minute, and two within one -/

/-- One second before, and at, the full minute. -/
def earlyDrive : TrackproPayload :=
  drivePayload ⟨"tp-2024-03-15-0000003b", by decide⟩
    ⟨"2024-03-15T10:30:59Z", ⟨2024, 3, 15, 10, 30, 59, 0, none⟩, by decide, by decide⟩

def lateDrive : TrackproPayload :=
  drivePayload ⟨"tp-2024-03-15-0000003c", by decide⟩
    ⟨"2024-03-15T10:31:00Z", ⟨2024, 3, 15, 10, 31, 0, 0, none⟩, by decide, by decide⟩

/-- The digests of the three texts that are hashed for these drives. -/
def minuteSha256 (text : String) : String :=
  if text = "demo-player-1|DR|2024-03-15T10:31|70.0|12.0|250|0" then
    "1bf2399b8cd860d110e0e092d5fbcccced3b6727eee0af470e874f6f05a2902f"
  else driveSha256 text

def minuteJob (ulid : String) (payload : TrackproPayload) : ShotJob where
  vendor := .trackpro
  normalisedShot := driveShot minuteSha256 ulid payload 1710498666000
  correlationId := "4c7f2a44-6a51-4b8e-9f0c-3d6a1f6f2b10"
  receivedAtUtc := 1710498666000

/-- How an attempt ends: it returns, or the patch after its last step is refused. -/
inductive AttemptEnd
  | returns
  | throws
  deriving DecidableEq

def attemptActions (n : ℕ) : AttemptEnd → List RetryAction
  | .returns => List.replicate n (.step 0)
  | .throws => List.replicate n (.step 0) ++ [.throw]

/-- After an attempt of `n` steps. -/
def afterAttempt (deps : Deps) (job : ShotJob) (w : World) (n : ℕ) (e : AttemptEnd) :
    World × ProcessState :=
  ((retries deps job).execAll (w, process job) (attemptActions n e)).getD (w, process job)

/-- The attempt comes to its end in `n` steps. -/
def Ends (deps : Deps) (job : ShotJob) (w : World) (n : ℕ) (e : AttemptEnd) : Prop :=
  ((retries deps job).execAll (w, process job) (attemptActions n e)).isSome = true ∧
    (afterAttempt deps job w n e).2.isOver = true

instance (deps : Deps) (job : ShotJob) (w : World) (n : ℕ) (e : AttemptEnd) :
    Decidable (Ends deps job w n e) :=
  inferInstanceAs (Decidable (_ ∧ _))

theorem completes_afterAttempt {w : World} {n : ℕ} {e : AttemptEnd} (h : Ends deps job w n e) :
    Completes deps job w (afterAttempt deps job w n e).1 := by
  obtain ⟨hrun, hover⟩ := h
  refine ⟨_, _, System.run_of_isSome (fun a ha _ hrestart => ?_) hrun, hover⟩
  subst hrestart
  cases e <;> simp [attemptActions] at ha

theorem processes_afterAttempt {w : World} {n : ℕ} {e : AttemptEnd} (h : Ends deps job w n e)
    (hstored : Stored (afterAttempt deps job w n e).1.db job.normalisedShot) :
    Processes deps job w (afterAttempt deps job w n e).1 :=
  ⟨completes_afterAttempt h, hstored⟩

/-- The later drive processed first: the earlier one, a second apart, does not find it. -/
theorem second_not_flagged :
    ¬ ∀ (deps : Deps) (first second : ShotJob) (w₀ w₁ w₂ : World),
      ParserProduced deps.sha256 first.normalisedShot →
      ParserProduced deps.sha256 second.normalisedShot →
      NearDuplicate first.normalisedShot second.normalisedShot →
      NoCollision deps.sha256 first.normalisedShot second.normalisedShot →
      (∀ row ∈ w₀.db.shots, ¬ OfUser first.normalisedShot row) →
      Processes deps first w₀ w₁ → Processes deps second w₁ w₂ →
      FlagsSecond w₂.db first.normalisedShot second.normalisedShot := by
  intro h
  let deps : Deps := ⟨minuteSha256, fun _ => none⟩
  let w₁ := (afterAttempt deps (minuteJob firstId lateDrive) Service.freshWorld 5 .returns).1
  let w₂ := (afterAttempt deps (minuteJob secondId earlyDrive) w₁ 3 .returns).1
  have hnear : NearDuplicate (minuteJob firstId lateDrive).normalisedShot
      (minuteJob secondId earlyDrive).normalisedShot :=
    ⟨rfl, rfl, by decide, rfl, rfl, rfl, rfl, rfl, by decide, by decide⟩
  obtain ⟨⟨hends₁, hstored₁⟩, ⟨hends₂, hstored₂⟩, hcollision, hflags⟩ :
      (Ends deps (minuteJob firstId lateDrive) Service.freshWorld 5 .returns ∧
        Stored w₁.db (minuteJob firstId lateDrive).normalisedShot) ∧
      (Ends deps (minuteJob secondId earlyDrive) w₁ 3 .returns ∧
        Stored w₂.db (minuteJob secondId earlyDrive).normalisedShot) ∧
      NoCollision deps.sha256 (minuteJob firstId lateDrive).normalisedShot
        (minuteJob secondId earlyDrive).normalisedShot ∧
      ¬ FlagsSecond w₂.db (minuteJob firstId lateDrive).normalisedShot
        (minuteJob secondId earlyDrive).normalisedShot := by
    decide +kernel
  exact hflags (h deps (minuteJob firstId lateDrive) (minuteJob secondId earlyDrive)
    Service.freshWorld w₁ w₂ parserProduced_driveShot parserProduced_driveShot hnear hcollision
    (by simp [Service.freshWorld, Database.empty]) (processes_afterAttempt hends₁ hstored₁)
    (processes_afterAttempt hends₂ hstored₂))

def firstJob : ShotJob := driveJob firstId firstDrive

def afterFirstDrive : World := (afterAttempt driveDeps firstJob Service.freshWorld 5 .returns).1

def afterBothDrives : World := (afterAttempt driveDeps secondJob afterFirstDrive 4 .throws).1

/-- Two drives five seconds apart. The attempt that flags the second one throws. -/
theorem second_flagged_iff_drives :
    FlagsSecond afterBothDrives.db firstJob.normalisedShot secondJob.normalisedShot := by
  have hnear : NearDuplicate firstJob.normalisedShot secondJob.normalisedShot :=
    ⟨rfl, rfl, by decide, rfl, rfl, rfl, rfl, rfl, by decide, by decide⟩
  obtain ⟨⟨hends₁, hstored₁⟩, ⟨hends₂, hstored₂⟩, hcollision⟩ :
      (Ends driveDeps firstJob Service.freshWorld 5 .returns ∧
        Stored afterFirstDrive.db firstJob.normalisedShot) ∧
      (Ends driveDeps secondJob afterFirstDrive 4 .throws ∧
        Stored afterBothDrives.db secondJob.normalisedShot) ∧
      NoCollision driveDeps.sha256 firstJob.normalisedShot secondJob.normalisedShot := by
    decide +kernel
  have hfirst : Processes driveDeps firstJob Service.freshWorld afterFirstDrive :=
    processes_afterAttempt hends₁ hstored₁
  have hsecond : Processes driveDeps secondJob afterFirstDrive afterBothDrives :=
    processes_afterAttempt hends₂ hstored₂
  exact (second_flagged_iff parserProduced_driveShot parserProduced_driveShot hnear
    hcollision (by simp [Service.freshWorld, Database.empty]) hfirst hsecond).mpr
    (by decide)

end PureplayIngest.Ingestion
