import PureplayIngest.Lib.Decimal
import PureplayIngest.Stats.Agreement

/-!
The cap on the shots that are aggregated.

Of the shots a query asks for the newest `MAX_STATS_ROWS` are read. That there
were more is concluded from how many were read, which says the same for a
table with exactly that many.
-/

namespace PureplayIngest.Stats

open Shared Shared.Domain Lib Shots

section Run

variable {κ : Type} (pg : Postgres κ)

/-- The rows that meet the conditions; `none` when a parameter is rejected. -/
def StatsSelect.matching (select : StatsSelect) (shots : List StoredShot) :
    Option (List StoredShot) := do
  let canonical_user_id ← boundString pg select.canonical_user_id
  let vendor_user_id ← boundString pg select.vendor_user_id
  let since ← pg.timestamptz (.str (isoString select.since))
  let until_ ← pg.timestamptz (.str (isoString select.until_))
  boundClub select.club
  return shots.filter fun row =>
    StatsMatches select since until_ canonical_user_id vendor_user_id row

theorem run_eq_matching (newest : Newest) (select : StatsSelect) (shots : List StoredShot) :
    select.run pg newest shots =
      (select.matching pg shots).map fun rows => (newest.order rows).take maxStatsRows := by
  simp only [StatsSelect.run, StatsSelect.matching, Option.bind_eq_bind, Option.map_bind,
    Function.comp_def, Option.pure_def, Option.map_some]

end Run

section Cap

variable {κ : Type} {ν : Type} (numbers : Numbers ν) (pg : Postgres κ) (newest : Newest)
  (parseDate : String → Option ℤ) (now : ℤ) (shots : List StoredShot) (filter : ShotsFilter)
  (userLabel : String) (query : StatsQuery)

/-- The answer to a query aggregates `included` of the `matching` shots, and not `leftOut`. -/
structure Aggregated (stats : StatsResponse ν) (matching included leftOut : List StoredShot) :
    Prop where
  answer : ∃ select, buildStatsSelect parseDate now filter query = .ok select ∧
    select.matching pg shots = some matching ∧ select.run pg newest shots = some included ∧
    stats = summarise numbers userLabel query select
      (included.map fun row => toStatsRow row.toResponse)
  parts : matching.Perm (included ++ leftOut)

/-- The answer says whether shots have been left out, and they are not the newest. -/
structure CapReported (stats : StatsResponse ν) (included leftOut : List StoredShot) : Prop where
  flag : stats.capped = true ↔ leftOut ≠ []
  no_later : ∀ a ∈ included, ∀ b ∈ leftOut, b.capturedAt ≤ a.capturedAt

variable {numbers pg newest parseDate now shots filter userLabel query}
  {stats : StatsResponse ν} {matching included leftOut : List StoredShot}

variable (numbers newest userLabel) in
/-- The answer from the shots that match, and the two parts of them. -/
theorem Aggregated.of_matching {select : StatsSelect}
    (hselect : buildStatsSelect parseDate now filter query = .ok select)
    (hmatching : select.matching pg shots = some matching) :
    ∃ stats, executeStatsQuery numbers pg newest parseDate now shots filter userLabel query =
        .ok stats ∧
      Aggregated numbers pg newest parseDate now shots filter userLabel query stats matching
        ((newest.order matching).take maxStatsRows)
        ((newest.order matching).drop maxStatsRows) := by
  have hrun := run_eq_matching pg newest select shots
  rw [hmatching, Option.map_some] at hrun
  refine ⟨_, executeStatsQuery_eq_ok.mpr ⟨select, _, hselect, hrun, rfl⟩,
    ⟨select, hselect, hmatching, hrun, rfl⟩, ?_⟩
  rw [List.take_append_drop]
  exact (newest.perm matching).symm

theorem Aggregated.of_ok
    (h : executeStatsQuery numbers pg newest parseDate now shots filter userLabel query =
      .ok stats) :
    ∃ matching included leftOut, Aggregated numbers pg newest parseDate now shots filter userLabel
      query stats matching included leftOut := by
  obtain ⟨select, included, hselect, hrun, _⟩ := executeStatsQuery_eq_ok.mp h
  rw [run_eq_matching, Option.map_eq_some_iff] at hrun
  obtain ⟨matching, hmatching, _⟩ := hrun
  obtain ⟨stats', hstats, hparts⟩ :=
    Aggregated.of_matching numbers newest userLabel hselect hmatching
  obtain rfl := Except.ok.inj (h.symm.trans hstats)
  exact ⟨matching, _, _, hparts⟩

section Parts

variable (h : Aggregated numbers pg newest parseDate now shots filter userLabel query stats
  matching included leftOut)

include h

theorem Aggregated.included_eq : included = (newest.order matching).take maxStatsRows := by
  obtain ⟨select, _, hmatching, hrun, _⟩ := h.answer
  rw [run_eq_matching, hmatching] at hrun
  exact (Option.some.inj hrun).symm

theorem Aggregated.capped_iff : stats.capped = true ↔ included.length = maxStatsRows := by
  obtain ⟨select, _, _, _, rfl⟩ := h.answer
  rw [summarise, decide_eq_true_eq, List.length_map]

/-- What has been left out are the rows behind the limit, in any order. -/
theorem Aggregated.leftOut_perm : ((newest.order matching).drop maxStatsRows).Perm leftOut := by
  have hparts := (newest.perm matching).trans h.parts
  rw [← List.take_append_drop maxStatsRows (newest.order matching), ← h.included_eq] at hparts
  exact (List.perm_append_left_iff included).mp hparts

theorem Aggregated.no_later :
    ∀ a ∈ included, ∀ b ∈ leftOut, b.capturedAt ≤ a.capturedAt := by
  have hdescending := newest.descending matching
  rw [← List.take_append_drop maxStatsRows (newest.order matching), List.pairwise_append,
    ← h.included_eq] at hdescending
  intro a ha b hb
  exact hdescending.2.2 a ha b (h.leftOut_perm.mem_iff.mpr hb)

theorem Aggregated.leftOut_ne_nil : leftOut ≠ [] ↔ maxStatsRows < matching.length := by
  have hlength := h.leftOut_perm.length_eq
  rw [List.length_drop, (newest.perm matching).length_eq] at hlength
  rw [← List.length_pos_iff]
  omega

theorem Aggregated.length_included : included.length = min maxStatsRows matching.length := by
  rw [h.included_eq, List.length_take, (newest.perm matching).length_eq]

/-- The flag is right but for exactly as many shots as are read. -/
theorem Aggregated.flag_iff :
    (stats.capped = true ↔ leftOut ≠ []) ↔ matching.length ≠ maxStatsRows := by
  rw [h.capped_iff, h.leftOut_ne_nil, h.length_included]
  constructor
  · intro hiff heq
    have hlt := hiff.mp (by omega)
    omega
  · intro hne
    omega

end Parts

/--
A statistics query that is answered aggregates the newest of the shots that
match. The flag tells whether others were left out exactly when the shots that
match are not as many as the cap.
-/
theorem capReported_iff
    (h : executeStatsQuery numbers pg newest parseDate now shots filter userLabel query =
      .ok stats) :
    (∃ matching included leftOut, Aggregated numbers pg newest parseDate now shots filter
        userLabel query stats matching included leftOut) ∧
      ∀ matching included leftOut, Aggregated numbers pg newest parseDate now shots filter
          userLabel query stats matching included leftOut →
        (∀ a ∈ included, ∀ b ∈ leftOut, b.capturedAt ≤ a.capturedAt) ∧
          (CapReported stats included leftOut ↔ matching.length ≠ maxStatsRows) :=
  ⟨Aggregated.of_ok h, fun _ _ _ hparts => ⟨hparts.no_later,
    ⟨fun hreported => hparts.flag_iff.mp hreported.flag,
      fun hne => ⟨hparts.flag_iff.mpr hne, hparts.no_later⟩⟩⟩⟩

end Cap

/-! ### A table with as many shots as are read -/

theorem thousand_pos : 0 < 1000 := by decide

/-- The drive with a number for its id. -/
def numberedDrive (i : ℕ) : StoredShot :=
  let id := String.ofList (pad 26 i)
  { fineShot id ⟨0, thousand_pos⟩ with idempotency_key := id }

theorem numberedDrive_id (i : ℕ) :
    (numberedDrive i).canonical_shot_id.toList = pad 26 i := String.toList_ofList

def numberedDrives (n : ℕ) : List StoredShot := (List.range n).map numberedDrive

theorem of_mem_numberedDrives {n : ℕ} {row : StoredShot} (hrow : row ∈ numberedDrives n) :
    ∃ i, row = numberedDrive i := by
  rw [numberedDrives, List.mem_map] at hrow
  obtain ⟨i, -, hi⟩ := hrow
  exact ⟨i, hi.symm⟩

theorem length_numberedDrives (n : ℕ) : (numberedDrives n).length = n := by
  rw [numberedDrives, List.length_map, List.length_range]

def numberedTable (n : ℕ) (hn : n ≤ 10 ^ 26) : ShotsTable where
  rows := numberedDrives n
  primaryKey := by
    rw [numberedDrives, List.map_map]
    refine List.Nodup.map_on (fun i hi j hj heq => ?_) List.nodup_range
    have hlt (k : ℕ) (hk : k ∈ List.range n) : k < 10 ^ 26 :=
      (List.mem_range.mp hk).trans_le hn
    exact pad_inj (hlt i hi) (hlt j hj) (String.ofList_injective heq)
  ids_ne_empty row hrow := by
    obtain ⟨i, rfl⟩ := of_mem_numberedDrives hrow
    intro hempty
    have hlength := congrArg (fun s => s.toList.length) hempty
    simp only [numberedDrive_id, length_pad] at hlength
    exact absurd hlength (by decide)
  ids_characters row hrow := by
    obtain ⟨i, rfl⟩ := of_mem_numberedDrives hrow
    rw [numberedDrive_id]
    intro hnul
    exact absurd (mem_pad hnul).1 (by decide)

theorem rows_numberedTable (n : ℕ) (hn : n ≤ 10 ^ 26) :
    (numberedTable n hn).rows = numberedDrives n := rfl

/-- Each of them is asked for. -/
theorem matches_numberedDrive (i : ℕ) :
    StatsMatches (explicitSelect golferFilter dayQuery 1710460800000 1710547200000)
      (1710460800000 * 1000) (1710547200000 * 1000) golferFilter.canonical_user_id
      golferFilter.vendor_user_id (numberedDrive i) := by
  have hcaptured : (numberedDrive i).capturedAt = 1710498600000000 := rfl
  refine ⟨by simp [golferFilter, numberedDrive, fineShot], by simp [explicitSelect, golferFilter],
    by simp [golferFilter], ?_, ?_, rfl, ?_, by simp [explicitSelect, dayQuery]⟩
  · rw [hcaptured]
    norm_num
  · rw [hcaptured]
    norm_num
  · show ClubCode.dr.toString ≠ "PT"
    decide

theorem build_dayQuery : buildStatsSelect scanDate 0 golferFilter dayQuery =
    .ok (explicitSelect golferFilter dayQuery 1710460800000 1710547200000) := by
  obtain ⟨hstart, hstop, hcheck⟩ := explicit_dayQuery.window 0 0
  exact buildStatsSelect_eq_ok.mpr ⟨0, _, _, isoOf_eq_ok.mpr ⟨by decide, rfl⟩, hstart, hstop,
    hcheck, rfl, rfl⟩

theorem matching_numberedDrives (n : ℕ) :
    (explicitSelect golferFilter dayQuery 1710460800000 1710547200000).matching
      Postgres.ofStrings (numberedDrives n) = some (numberedDrives n) := by
  have ha := accepted_dayQuery none
  have hall : ((numberedDrives n).filter fun row =>
      StatsMatches (explicitSelect golferFilter dayQuery 1710460800000 1710547200000)
        (1710460800000 * 1000) (1710547200000 * 1000) golferFilter.canonical_user_id
        golferFilter.vendor_user_id row) = numberedDrives n := by
    refine List.filter_eq_self.mpr fun row hrow => decide_eq_true ?_
    obtain ⟨i, rfl⟩ := of_mem_numberedDrives hrow
    exact matches_numberedDrive i
  have huser : boundString Postgres.ofStrings golferFilter.canonical_user_id =
      some golferFilter.canonical_user_id := ha.user
  have hvendorUser : boundString Postgres.ofStrings golferFilter.vendor_user_id =
      some golferFilter.vendor_user_id := ha.vendorUser
  have hstart := ha.start
  have hstop := ha.stop
  simp only [StatsSelect.matching, explicitSelect, huser, hvendorUser, hstart, hstop,
    Option.bind_eq_bind, Option.bind_some, explicit_dayQuery.boundClub]
  exact congrArg some hall

/-- All of the drives are aggregated, and at the cap it looks as if there were more. -/
theorem aggregates_numberedDrives {n : ℕ} (hn : n ≤ maxStatsRows) :
    ∃ stats included, getStats Numbers.ofFractions Postgres.ofStrings Newest.stable scanDate 0
        (numberedDrives n) "golfer-1" dayQuery = .ok stats ∧
      Aggregated Numbers.ofFractions Postgres.ofStrings Newest.stable scanDate 0
        (numberedDrives n) golferFilter "golfer-1" dayQuery stats (numberedDrives n) included [] ∧
      (stats.capped = true ↔ n = maxStatsRows) := by
  obtain ⟨stats, hstats, hparts⟩ := Aggregated.of_matching Numbers.ofFractions Newest.stable
    "golfer-1" build_dayQuery (matching_numberedDrives n)
  have hnone : (Newest.stable.order (numberedDrives n)).drop maxStatsRows = [] := by
    rw [List.drop_eq_nil_iff, (Newest.stable.perm _).length_eq, length_numberedDrives]
    exact hn
  rw [hnone] at hparts
  refine ⟨stats, _, hstats, hparts, ?_⟩
  rw [hparts.capped_iff, hparts.length_included, length_numberedDrives, min_eq_right hn]

theorem capReported_iff_two :
    ∃ stats included, getStats Numbers.ofFractions Postgres.ofStrings Newest.stable scanDate 0
        (numberedDrives 2) "golfer-1" dayQuery = .ok stats ∧ CapReported stats included [] := by
  obtain ⟨stats, included, hstats, hparts, -⟩ := aggregates_numberedDrives (n := 2) (by decide)
  refine ⟨stats, included, hstats, ((capReported_iff hstats).2 _ _ _ hparts).2.mpr ?_⟩
  rw [length_numberedDrives]
  decide

theorem maxStatsRows_le : maxStatsRows ≤ 10 ^ 26 := by decide

def fullTable : ShotsTable := numberedTable maxStatsRows maxStatsRows_le

/-- No shot of the table is left out, and the answer says that there are more. -/
theorem not_capReported_fullTable :
    ∃ stats included, getStats Numbers.ofFractions Postgres.ofStrings Newest.stable scanDate 0
        fullTable.rows "golfer-1" dayQuery = .ok stats ∧
      Aggregated Numbers.ofFractions Postgres.ofStrings Newest.stable scanDate 0
        fullTable.rows golferFilter "golfer-1" dayQuery stats fullTable.rows included [] ∧
      stats.capped = true ∧ ¬ CapReported stats included [] := by
  rw [fullTable, rows_numberedTable]
  obtain ⟨stats, included, hstats, hparts, hcapped⟩ := aggregates_numberedDrives le_rfl
  exact ⟨stats, included, hstats, hparts, hcapped.mpr rfl, fun hreported =>
    hreported.flag.mp (hcapped.mpr rfl) rfl⟩

end PureplayIngest.Stats
