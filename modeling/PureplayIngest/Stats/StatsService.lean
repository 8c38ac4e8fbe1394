import PureplayIngest.Lib.Grouping
import PureplayIngest.Shots.ShotsService

/-!
`StatsService`: statistics per club over the shots of a window.

The query is built a second time here, independently of the listing's: the
conditions of a filter are there when the filter is given at all, and the
strings of the window are compared before the query runs. The rows come
newest first, which leaves the order of shots captured at the same time to the
database (`Newest`). The arithmetic on JavaScript's numbers is left open too
(`Numbers`): which rows are aggregated does not depend on it.
-/

namespace PureplayIngest.Stats

open Shared Shared.Domain Lib Shots

structure StatsQuery where
  since : Option String
  until_ : Option String
  club : Option String

/-! ### Numbers -/

/-- The arithmetic of numbers; indices into an array are natural numbers. -/
structure Numbers (ν : Type) where
  ofRat : ℚ → ν
  add : ν → ν → ν
  sub : ν → ν → ν
  mul : ν → ν → ν
  div : ν → ν → ν
  square : ν → ν
  sqrt : ν → ν
  floor : ν → ℕ
  ceil : ν → ℕ
  /-- The difference of two numbers is not positive. -/
  le : ν → ν → Bool

namespace Numbers

variable {ν : Type} (numbers : Numbers ν)

/-- Exact arithmetic, where the root of a fraction is taken of its terms. -/
def ofFractions : Numbers ℚ where
  ofRat := id
  add x y := x + y
  sub x y := x - y
  mul x y := x * y
  div x y := x / y
  square x := x * x
  sqrt x := (x.num.toNat.sqrt : ℚ) / x.den.sqrt
  floor x := x.floor.toNat
  ceil x := x.ceil.toNat
  le x y := x ≤ y

def sum (values : List ν) : ν := values.foldl numbers.add (numbers.ofRat 0)

def mean (values : List ν) : ν := numbers.div (numbers.sum values) (numbers.ofRat values.length)

def stddev (values : List ν) : ν :=
  if values.length = 0 then numbers.ofRat 0
  else
    let mean := numbers.mean values
    let variance := numbers.div
      (values.foldl (fun a b => numbers.add a (numbers.square (numbers.sub b mean)))
        (numbers.ofRat 0))
      (numbers.ofRat values.length)
    numbers.sqrt variance

def percentile (sorted : List ν) (p : ℚ) : ν :=
  if sorted.length = 0 then numbers.ofRat 0
  else
    let idx := numbers.mul (numbers.div (numbers.ofRat p) (numbers.ofRat 100))
      (numbers.ofRat (sorted.length - 1 : ℕ))
    let lower := numbers.floor idx
    let upper := numbers.ceil idx
    let at_ (i : ℕ) := sorted.getD i (numbers.ofRat 0)
    if lower = upper then at_ lower
    else numbers.add (at_ lower) (numbers.mul (numbers.sub (at_ upper) (at_ lower))
      (numbers.sub idx (numbers.ofRat lower)))

/-- `sort((a, b) => a - b)`. -/
def sort (values : List ν) : List ν := values.mergeSort numbers.le

end Numbers

/-! ### The aggregates of a club -/

/-- The columns the query selects. -/
structure StatsRow where
  club_code : ClubValue
  vendor : Vendor
  ball_speed_mps : ℚ
  launch_angle_deg : ℚ
  carry_m : ℚ
  lateral_m : ℚ
  spin_rpm : Option ℤ
  deriving DecidableEq

def toStatsRow (shot : ShotWithoutPayload) : StatsRow :=
  { club_code := shot.club_code, vendor := shot.vendor, ball_speed_mps := shot.ball_speed_mps
    launch_angle_deg := shot.launch_angle_deg, carry_m := shot.carry_m
    lateral_m := shot.lateral_m, spin_rpm := shot.spin_rpm }

structure NumericStats (ν : Type) where
  mean : ν
  stdev : ν
  p50 : Option ν
  p90 : Option ν

structure SpinStats (ν : Type) where
  mean : Option ν
  stdev : Option ν
  sample_size : ℕ
  vendors_excluded : List Vendor

structure ClubAggregate (ν : Type) where
  club_code : ClubValue
  sample_size : ℕ
  carry_m : NumericStats ν
  lateral_m : NumericStats ν
  ball_speed_mps : ν × ν
  launch_angle_deg : ν × ν
  spin_rpm : SpinStats ν
  /-- `lateral_sigma_m` and `carry_sigma_m`. -/
  dispersion : ν × ν
  low_sample_size : Bool

def lowSampleSizeThreshold : ℕ := 10

section Aggregates

variable {ν : Type} (numbers : Numbers ν)

/-- Of sorted values; a small sample has no percentiles. -/
def numericStats (isLowSample : Bool) (sorted : List ν) : NumericStats ν :=
  { mean := numbers.mean sorted
    stdev := numbers.stddev sorted
    p50 := if isLowSample then none else some (numbers.percentile sorted 50)
    p90 := if isLowSample then none else some (numbers.percentile sorted 90) }

def spinStats (shots : List StatsRow) : SpinStats ν :=
  let spinVals := numbers.sort ((shots.filterMap (·.spin_rpm)).map fun rpm => numbers.ofRat rpm)
  { mean := if 0 < spinVals.length then some (numbers.mean spinVals) else none
    stdev := if 0 < spinVals.length then some (numbers.stddev spinVals) else none
    sample_size := spinVals.length
    vendors_excluded := ((shots.filter fun s => s.spin_rpm = none).map (·.vendor)).eraseDups }

def clubAggregate (clubCode : ClubValue) (shots : List StatsRow) : ClubAggregate ν :=
  let isLowSample := decide (shots.length < lowSampleSizeThreshold)
  let carryVals := numbers.sort (shots.map fun s => numbers.ofRat s.carry_m)
  let lateralVals := numbers.sort (shots.map fun s => numbers.ofRat s.lateral_m)
  let speedVals := shots.map fun s => numbers.ofRat s.ball_speed_mps
  let angleVals := shots.map fun s => numbers.ofRat s.launch_angle_deg
  { club_code := clubCode
    sample_size := shots.length
    carry_m := numericStats numbers isLowSample carryVals
    lateral_m := numericStats numbers isLowSample lateralVals
    ball_speed_mps := (numbers.mean speedVals, numbers.stddev speedVals)
    launch_angle_deg := (numbers.mean angleVals, numbers.stddev angleVals)
    spin_rpm := spinStats numbers shots
    dispersion := (numbers.stddev lateralVals, numbers.stddev carryVals)
    low_sample_size := isLowSample }

def aggregates (rows : List StatsRow) : List (ClubAggregate ν) :=
  (Grouping.groupBy (·.club_code) rows).map fun group => clubAggregate numbers group.1 group.2

/-- Every row is counted for one club. -/
theorem sum_sample_size (rows : List StatsRow) :
    ((aggregates numbers rows).map (·.sample_size)).sum = rows.length := by
  rw [aggregates, List.map_map]
  exact Grouping.sum_length_groupBy _ rows

theorem aggregates_eq (rows : List StatsRow) :
    aggregates numbers rows = ((Grouping.groupBy (·.club_code) rows).map Prod.fst).map fun code =>
      clubAggregate numbers code (rows.filter (·.club_code = code)) := by
  rw [aggregates, List.map_map]
  refine List.map_congr_left fun group hgroup => ?_
  rw [((Grouping.grouped_groupBy (·.club_code) rows).mem_iff group.1 group.2).mp hgroup |>.1]
  rfl

/-- There is an entry for every club with a row, worked out from its rows. -/
theorem mem_aggregates {rows : List StatsRow} {club : ClubAggregate ν} :
    club ∈ aggregates numbers rows ↔
      (∃ row ∈ rows, row.club_code = club.club_code) ∧
        club = clubAggregate numbers club.club_code
          (rows.filter (·.club_code = club.club_code)) := by
  rw [aggregates_eq, List.mem_map]
  simp only [(Grouping.grouped_groupBy _ rows).mem_keys]
  constructor
  · rintro ⟨code, hcode, rfl⟩
    exact ⟨hcode, rfl⟩
  · rintro ⟨hcode, hclub⟩
    exact ⟨club.club_code, hcode, hclub.symm⟩

end Aggregates

/-! ### The query -/

def maxStatsRows : ℕ := 10000

/-- `ORDER BY captured_at_utc DESC`, for rows in whatever order. -/
structure Newest where
  order : List StoredShot → List StoredShot
  perm : ∀ rows, (order rows).Perm rows
  descending : ∀ rows, (order rows).Pairwise fun a b => b.capturedAt ≤ a.capturedAt

/-- Shots captured at the same time stay in the order of the table. -/
def Newest.stable : Newest where
  order rows := rows.mergeSort fun a b => b.capturedAt ≤ a.capturedAt
  perm rows := List.mergeSort_perm _ _
  descending rows := by
    refine (List.pairwise_mergeSort ?_ ?_ rows).imp of_decide_eq_true
    · intro a b c hab hbc
      simp only [decide_eq_true_eq] at *
      omega
    · intro a b
      simp only [Bool.or_eq_true, decide_eq_true_eq]
      omega

/-- The conditions of the query and their parameters. -/
structure StatsSelect where
  since : ℤ
  until_ : ℤ
  canonical_user_id : Option String
  vendor : Option Vendor
  vendor_user_id : Option String
  club : Option String

section Query

variable (parseDate : String → Option ℤ)

/-- The service has a copy of the listing's function. -/
def parseWindowDate (value fieldName : String) : Except ShotsError ℤ :=
  Shots.parseWindowDate parseDate value fieldName

def windowStart (now : ℤ) (query : StatsQuery) : Except ShotsError ℤ :=
  match given query.since with
  | some value => parseWindowDate parseDate value "since"
  | none => isoOf (now - defaultWindowDays * 86400 * 1000)

def windowEnd (nowIso : ℤ) (query : StatsQuery) : Except ShotsError ℤ :=
  match given query.until_ with
  | some value => parseWindowDate parseDate value "until"
  | none => .ok nowIso

/-- `since >= until` compares strings. -/
def checkWindow (since until_ : ℤ) : Except ShotsError Unit :=
  if isoString until_ ≤ isoString since then
    .error (.domain (invalidDateError "since"
      ("since (" ++ isoString since ++ ") must be before until (" ++ isoString until_ ++ ")")))
  else .ok ()

/-- `executeStatsQuery` up to the point where the query is run. -/
def buildStatsSelect (now : ℤ) (filter : ShotsFilter) (query : StatsQuery) :
    Except ShotsError StatsSelect := do
  let nowIso ← isoOf now
  let since ← windowStart parseDate now query
  let until_ ← windowEnd parseDate nowIso query
  checkWindow since until_
  checkClub query.club
  return {
    since, until_
    canonical_user_id := filter.canonical_user_id
    vendor := filter.vendor
    vendor_user_id := filter.vendor_user_id
    club := query.club }

end Query

/-- The conditions, with their parameters as the database has read them. -/
def StatsMatches (select : StatsSelect) (since until_ : ℤ)
    (canonical_user_id vendor_user_id : Option String) (row : StoredShot) : Prop :=
  (∀ c ∈ canonical_user_id, row.canonical_user_id = some c) ∧
    (∀ v ∈ select.vendor, row.vendor = v) ∧
    (∀ u ∈ vendor_user_id, row.vendor_user_id = u) ∧
    since ≤ row.capturedAt ∧ row.capturedAt ≤ until_ ∧
    row.duplicate_of = none ∧
    row.club_code.toString ≠ "PT" ∧
    (∀ c ∈ select.club, row.club_code.toString = c)

instance (select : StatsSelect) (since until_ : ℤ)
    (canonical_user_id vendor_user_id : Option String) (row : StoredShot) :
    Decidable (StatsMatches select since until_ canonical_user_id vendor_user_id row) :=
  inferInstanceAs (Decidable (_ ∧ _ ∧ _ ∧ _ ∧ _ ∧ _ ∧ _ ∧ _))

section Run

variable {κ : Type} (pg : Postgres κ) (newest : Newest)

/-- A parameter compared with the enum `club_code`; the labels are all there is to compare with. -/
def boundClub : Option String → Option Unit
  | none => some ()
  | some code => (ClubCode.ofString? code).map fun _ => ()

/-- The rows the query returns; `none` when a parameter is rejected. -/
def StatsSelect.run (select : StatsSelect) (shots : List StoredShot) :
    Option (List StoredShot) := do
  let canonical_user_id ← boundString pg select.canonical_user_id
  let vendor_user_id ← boundString pg select.vendor_user_id
  let since ← pg.timestamptz (.str (isoString select.since))
  let until_ ← pg.timestamptz (.str (isoString select.until_))
  boundClub select.club
  return (newest.order (shots.filter fun row =>
    StatsMatches select since until_ canonical_user_id vendor_user_id row)).take maxStatsRows

end Run

structure StatsResponse (ν : Type) where
  user_id : String
  since : ℤ
  until_ : ℤ
  club : Option String
  shot_count : ℕ
  capped : Bool
  by_club : List (ClubAggregate ν)

/-- `executeStatsQuery` from where the rows have been read. -/
def summarise {ν : Type} (numbers : Numbers ν) (userLabel : String) (query : StatsQuery)
    (select : StatsSelect) (rows : List StatsRow) : StatsResponse ν :=
  { user_id := userLabel, since := select.since, until_ := select.until_, club := query.club
    shot_count := rows.length, capped := rows.length = maxStatsRows
    by_club := aggregates numbers rows }

section Service

variable {κ : Type} {ν : Type} (numbers : Numbers ν) (pg : Postgres κ) (newest : Newest)
  (parseDate : String → Option ℤ) (now : ℤ) (shots : List StoredShot)

def executeStatsQuery (filter : ShotsFilter) (userLabel : String) (query : StatsQuery) :
    Except ShotsError (StatsResponse ν) := do
  let select ← buildStatsSelect parseDate now filter query
  match select.run pg newest shots with
  | none => .error .database
  | some rows =>
      return summarise numbers userLabel query select
        (rows.map fun row => toStatsRow row.toResponse)

def getStats (userId : String) (query : StatsQuery) : Except ShotsError (StatsResponse ν) :=
  executeStatsQuery numbers pg newest parseDate now shots
    { canonical_user_id := some userId, vendor := none, vendor_user_id := none } userId query

def getStatsByVendorUser (vendor vendorUserId : String) (query : StatsQuery) :
    Except ShotsError (StatsResponse ν) :=
  match Vendor.ofString? vendor with
  | none => .error (.domain (unknownVendorError vendor))
  | some v => executeStatsQuery numbers pg newest parseDate now shots
      { canonical_user_id := none, vendor := some v, vendor_user_id := some vendorUserId }
      (vendor ++ "/" ++ vendorUserId) query

end Service

/-! ### What a request that succeeds has gone through -/

theorem buildStatsSelect_eq_ok {parseDate : String → Option ℤ} {now : ℤ} {filter : ShotsFilter}
    {query : StatsQuery} {select : StatsSelect} :
    buildStatsSelect parseDate now filter query = .ok select ↔
      ∃ nowIso since until_, isoOf now = .ok nowIso ∧
        windowStart parseDate now query = .ok since ∧
        windowEnd parseDate nowIso query = .ok until_ ∧ checkWindow since until_ = .ok () ∧
        checkClub query.club = .ok () ∧
        select = {
          since, until_
          canonical_user_id := filter.canonical_user_id
          vendor := filter.vendor
          vendor_user_id := filter.vendor_user_id
          club := query.club } := by
  simp only [buildStatsSelect, bind_eq_ok]
  constructor
  · rintro ⟨nowIso, hnow, since, hsince, until_, huntil, _, hwindow, _, hclub, h⟩
    exact ⟨nowIso, since, until_, hnow, hsince, huntil, hwindow, hclub, (Except.ok.inj h).symm⟩
  · rintro ⟨nowIso, since, until_, hnow, hsince, huntil, hwindow, hclub, rfl⟩
    exact ⟨nowIso, hnow, since, hsince, until_, huntil, (), hwindow, (), hclub, rfl⟩

section Spec

variable {κ : Type} {pg : Postgres κ} {newest : Newest} {shots : List StoredShot}

theorem statsRun_eq_some {select : StatsSelect} {rows : List StoredShot} :
    select.run pg newest shots = some rows ↔
      ∃ canonical_user_id vendor_user_id since until_,
        boundString pg select.canonical_user_id = some canonical_user_id ∧
        boundString pg select.vendor_user_id = some vendor_user_id ∧
        pg.timestamptz (.str (isoString select.since)) = some since ∧
        pg.timestamptz (.str (isoString select.until_)) = some until_ ∧
        boundClub select.club = some () ∧
        rows = (newest.order (shots.filter fun row =>
          StatsMatches select since until_ canonical_user_id vendor_user_id row)).take
            maxStatsRows := by
  simp only [StatsSelect.run, Option.bind_eq_bind, Option.bind_eq_some_iff, Option.pure_def,
    Option.some.injEq]
  constructor
  · rintro ⟨c, hc, v, hv, since, hs, until_, hu, _, hclub, h⟩
    exact ⟨c, v, since, until_, hc, hv, hs, hu, hclub, h.symm⟩
  · rintro ⟨c, v, since, until_, hc, hv, hs, hu, hclub, h⟩
    exact ⟨c, hc, v, hv, since, hs, until_, hu, (), hclub, h.symm⟩

theorem executeStatsQuery_eq_ok {ν : Type} {numbers : Numbers ν} {parseDate : String → Option ℤ}
    {now : ℤ} {filter : ShotsFilter} {userLabel : String} {query : StatsQuery}
    {stats : StatsResponse ν} :
    executeStatsQuery numbers pg newest parseDate now shots filter userLabel query = .ok stats ↔
      ∃ select rows, buildStatsSelect parseDate now filter query = .ok select ∧
        select.run pg newest shots = some rows ∧
        stats = summarise numbers userLabel query select
          (rows.map fun row => toStatsRow row.toResponse) := by
  rw [executeStatsQuery, bind_eq_ok]
  constructor
  · rintro ⟨select, hselect, h⟩
    cases hrun : select.run pg newest shots with
    | none => exact absurd h (by simp [hrun])
    | some rows =>
        rw [hrun] at h
        exact ⟨select, rows, hselect, hrun, (Except.ok.inj h).symm⟩
  · rintro ⟨select, rows, hselect, hrun, rfl⟩
    exact ⟨select, hselect, by rw [hrun]; rfl⟩

end Spec

end PureplayIngest.Stats
