import Mathlib.Data.Rat.Cast.Defs
import Mathlib.Data.Rat.Floor
import PureplayIngest.Lib.Statistics
import PureplayIngest.Stats.StatsService

/-!
The aggregates of the clubs, in exact arithmetic.

The shots of a club are grouped, sorted and folded in the order in which the
database returned them, and shots captured at the same time come in any order.
What comes out is described from the set of the shots of the club alone: each
figure is the one that the definitions of `Lib.Statistics` give.
-/

namespace PureplayIngest.Stats

open Shared Shared.Domain Lib Statistics

variable {K : Type} [Field K] [LinearOrder K] [FloorSemiring K]

/-- Arithmetic without rounding, with any square root. -/
def Numbers.exact (sqrt : K → K) : Numbers K where
  ofRat q := q
  add x y := x + y
  sub x y := x - y
  mul x y := x * y
  div x y := x / y
  square x := x ^ 2
  sqrt := sqrt
  floor x := ⌊x⌋₊
  ceil x := ⌈x⌉₊
  le x y := x ≤ y

/-! ### The definitions of the figures -/

section Definitions

variable (sqrt : K → K)

def figures (isLowSample : Bool) (values : Multiset K) : NumericStats K :=
  { mean := mean values
    stdev := sqrt (variance values)
    p50 := if isLowSample then none else some (quantile values (1 / 2))
    p90 := if isLowSample then none else some (quantile values (9 / 10)) }

/-- Of the shots that have a spin. -/
def spinFigures (shots : Multiset StatsRow) : SpinStats K :=
  let values : Multiset K := (shots.filterMap (·.spin_rpm)).map fun rpm : ℤ => (rpm : K)
  { mean := if 0 < values.card then some (mean values) else none
    stdev := if 0 < values.card then some (sqrt (variance values)) else none
    sample_size := values.card
    vendors_excluded :=
      validVendors.filter (· ∈ (shots.filter fun s => s.spin_rpm = none).map (·.vendor)) }

/-- The aggregate of a club from the set of its shots. -/
def clubFigures (clubCode : ClubValue) (shots : Multiset StatsRow) : ClubAggregate K :=
  let isLowSample := decide (shots.card < lowSampleSizeThreshold)
  let carry := shots.map fun s => (s.carry_m : K)
  let lateral := shots.map fun s => (s.lateral_m : K)
  let speed := shots.map fun s => (s.ball_speed_mps : K)
  let angle := shots.map fun s => (s.launch_angle_deg : K)
  { club_code := clubCode
    sample_size := shots.card
    carry_m := figures sqrt isLowSample carry
    lateral_m := figures sqrt isLowSample lateral
    ball_speed_mps := (mean speed, sqrt (variance speed))
    launch_angle_deg := (mean angle, sqrt (variance angle))
    spin_rpm := spinFigures sqrt shots
    dispersion := (sqrt (variance lateral), sqrt (variance carry))
    low_sample_size := isLowSample }

end Definitions

/-- The vendors in the order of `VALID_VENDORS`, so that only their set counts. -/
def ClubAggregate.ordered {ν : Type} (club : ClubAggregate ν) : ClubAggregate ν :=
  { club with
    spin_rpm :=
      { club.spin_rpm with
        vendors_excluded := validVendors.filter (· ∈ club.spin_rpm.vendors_excluded) } }

/-! ### The code computes them -/

section Exact

variable {sqrt : K → K} {values : List K} {shots : List StatsRow}

theorem sum_exact (values : List K) : (Numbers.exact sqrt).sum values = values.sum := by
  rw [Numbers.sum, List.sum_eq_foldl]
  show values.foldl (fun x y => x + y) ((0 : ℚ) : K) = _
  rw [Rat.cast_zero]

theorem mean_exact (values : List K) :
    (Numbers.exact sqrt).mean values = mean (values : Multiset K) := by
  rw [Numbers.mean, sum_exact, mean, Multiset.sum_coe, Multiset.coe_card]
  show values.sum / ((values.length : ℚ) : K) = _
  rw [Rat.cast_natCast]

theorem stddev_exact (hne : values ≠ []) :
    (Numbers.exact sqrt).stddev values = sqrt (variance (values : Multiset K)) := by
  have hfold (m : K) : values.foldl (fun a b => a + (b - m) ^ 2) 0 =
      (values.map fun x => (x - m) ^ 2).sum := by
    rw [List.sum_eq_foldl, List.foldl_map]
  rw [Numbers.stddev, if_neg (mt List.eq_nil_of_length_eq_zero hne), mean_exact, variance,
    Multiset.map_coe, Multiset.sum_coe, Multiset.coe_card, ← hfold]
  show sqrt (values.foldl (fun a b => a + (b - mean (values : Multiset K)) ^ 2) ((0 : ℚ) : K) /
    ((values.length : ℚ) : K)) = _
  rw [Rat.cast_zero, Rat.cast_natCast]

theorem sort_exact (values : List K) :
    (Numbers.exact sqrt).sort values = (values : Multiset K).sort (· ≤ ·) := rfl

variable [IsStrictOrderedRing K]

theorem percentile_exact (hne : values ≠ []) {p : ℚ} (hp : 0 ≤ p) {q : K}
    (hq : (p : K) / 100 = q) :
    (Numbers.exact sqrt).percentile ((values : Multiset K).sort (· ≤ ·)) p =
      quantile (values : Multiset K) q := by
  have hlength : ((values : Multiset K).sort (· ≤ ·)).length ≠ 0 := by
    rw [Multiset.length_sort]
    exact mt List.eq_nil_of_length_eq_zero hne
  have hplace : 0 ≤ q * ((Multiset.card (values : Multiset K) - 1 : ℕ) : K) := by
    rw [← hq]
    exact mul_nonneg (div_nonneg (Rat.cast_nonneg.mpr hp) (by norm_num)) (Nat.cast_nonneg _)
  rw [Numbers.percentile, if_neg hlength, quantile]
  simp only [Numbers.exact, Multiset.length_sort, Rat.cast_natCast, Rat.cast_ofNat, hq,
    Rat.cast_zero]
  exact interpolate_eq (orderStatistic (values : Multiset K)) hplace

theorem numericStats_exact (hne : values ≠ []) (isLowSample : Bool) :
    numericStats (Numbers.exact sqrt) isLowSample ((Numbers.exact sqrt).sort values) =
      figures sqrt isLowSample (values : Multiset K) := by
  have hsorted : ((values : Multiset K).sort (· ≤ ·) : Multiset K) = values :=
    Multiset.sort_eq _ _
  have hne' : (values : Multiset K).sort (· ≤ ·) ≠ [] := by
    intro h
    rw [h] at hsorted
    exact hne (Multiset.coe_eq_zero _ |>.mp hsorted.symm)
  rw [numericStats, figures, sort_exact, mean_exact, stddev_exact hne', hsorted,
    percentile_exact hne (by norm_num) (by norm_num : ((50 : ℚ) : K) / 100 = 1 / 2),
    percentile_exact hne (by norm_num) (by norm_num : ((90 : ℚ) : K) / 100 = 9 / 10)]

omit [IsStrictOrderedRing K] in
/-- The figures of the spins, the vendors apart. -/
theorem spin_exact (sqrt : K → K) (values : List K) :
    (if 0 < ((Numbers.exact sqrt).sort values).length then
        some ((Numbers.exact sqrt).mean ((Numbers.exact sqrt).sort values)) else none) =
      (if 0 < Multiset.card (values : Multiset K) then
        some (mean (values : Multiset K)) else none) ∧
    (if 0 < ((Numbers.exact sqrt).sort values).length then
        some ((Numbers.exact sqrt).stddev ((Numbers.exact sqrt).sort values)) else none) =
      (if 0 < Multiset.card (values : Multiset K) then
        some (sqrt (variance (values : Multiset K))) else none) := by
  rw [sort_exact, Multiset.length_sort, mean_exact, Multiset.sort_eq]
  refine ⟨rfl, ?_⟩
  split
  · rename_i h
    rw [stddev_exact, Multiset.sort_eq]
    exact List.ne_nil_of_length_pos (by rwa [Multiset.length_sort])
  · rfl

omit [IsStrictOrderedRing K] in
theorem spinStats_exact (shots : List StatsRow) :
    { spinStats (Numbers.exact sqrt) shots with
      vendors_excluded :=
        validVendors.filter (· ∈ (spinStats (Numbers.exact sqrt) shots).vendors_excluded) } =
      spinFigures sqrt (shots : Multiset StatsRow) := by
  have hvalues : ((shots : Multiset StatsRow).filterMap (·.spin_rpm)).map
        (fun rpm : ℤ => (rpm : K)) =
      (((shots.filterMap (·.spin_rpm)).map fun rpm => (Numbers.exact sqrt).ofRat rpm : List K) :
        Multiset K) := by
    rw [Multiset.filterMap_coe, Multiset.map_coe, List.map_filterMap, List.map_filterMap]
    congr 2
    funext s
    cases s.spin_rpm with
    | none => rfl
    | some rpm => exact congrArg some (Rat.cast_intCast rpm).symm
  have hvendors (v : Vendor) :
      v ∈ ((shots.filter fun s => s.spin_rpm = none).map (·.vendor)).eraseDups ↔
        v ∈ ((shots : Multiset StatsRow).filter fun s => s.spin_rpm = none).map (·.vendor) := by
    rw [List.mem_eraseDups, Multiset.filter_coe, Multiset.map_coe, Multiset.mem_coe]
  obtain ⟨hmean, hstdev⟩ := spin_exact sqrt
    ((shots.filterMap (·.spin_rpm)).map fun rpm => (Numbers.exact sqrt).ofRat rpm)
  simp only [spinStats, spinFigures, hvalues, hvendors]
  rw [hmean, hstdev, sort_exact, Multiset.length_sort]

theorem clubAggregate_exact (clubCode : ClubValue) (hne : shots ≠ []) :
    (clubAggregate (Numbers.exact sqrt) clubCode shots).ordered =
      clubFigures sqrt clubCode (shots : Multiset StatsRow) := by
  have hmap (f : StatsRow → ℚ) : (shots.map fun s => (Numbers.exact sqrt).ofRat (f s)) ≠ [] :=
    mt List.map_eq_nil_iff.mp hne
  have hcoe (f : StatsRow → ℚ) :
      ((shots.map fun s => (Numbers.exact sqrt).ofRat (f s) : List K) : Multiset K) =
        (shots : Multiset StatsRow).map fun s => (f s : K) := by
    rw [Multiset.map_coe]
    rfl
  have hsorted (f : StatsRow → ℚ) :
      (Numbers.exact sqrt).stddev ((Numbers.exact sqrt).sort
        (shots.map fun s => (Numbers.exact sqrt).ofRat (f s))) =
      sqrt (variance ((shots : Multiset StatsRow).map fun s => (f s : K))) := by
    rw [← hcoe]
    exact congrArg NumericStats.stdev (numericStats_exact (hmap f) false)
  simp only [ClubAggregate.ordered, clubAggregate, clubFigures, spinStats_exact,
    numericStats_exact (hmap _), mean_exact, stddev_exact (hmap _), hsorted, hcoe,
    Multiset.coe_card]
  rfl

end Exact

/-! ### Whatever the order of the rows -/

section Aggregates

variable [IsStrictOrderedRing K] {rows rows' : List StatsRow}

theorem ordered_eq_clubFigures (sqrt : K → K) (rows : List StatsRow) {club : ClubAggregate K}
    (hclub : club ∈ aggregates (Numbers.exact sqrt) rows) :
    club.ordered = clubFigures sqrt club.club_code
      ((rows.filter (·.club_code = club.club_code) : List StatsRow) : Multiset StatsRow) := by
  obtain ⟨⟨row, hrow, hcode⟩, heq⟩ := (mem_aggregates _).mp hclub
  have hne : rows.filter (·.club_code = club.club_code) ≠ [] :=
    List.ne_nil_of_mem (List.mem_filter.mpr ⟨hrow, decide_eq_true hcode⟩)
  rw [← clubAggregate_exact club.club_code hne, ← heq]

/-- Entry by entry, from the codes of the clubs. -/
theorem ordered_aggregates (sqrt : K → K) (rows : List StatsRow) :
    (aggregates (Numbers.exact sqrt) rows).map (·.ordered) =
      ((aggregates (Numbers.exact sqrt) rows).map (·.club_code)).map fun code =>
        clubFigures sqrt code
          ((rows.filter (·.club_code = code) : List StatsRow) : Multiset StatsRow) := by
  rw [List.map_map]
  exact List.map_congr_left fun club hclub => ordered_eq_clubFigures sqrt rows hclub

omit [IsStrictOrderedRing K] in
theorem codes_aggregates (sqrt : K → K) (rows : List StatsRow) :
    (aggregates (Numbers.exact sqrt) rows).map (·.club_code) =
      (Grouping.groupBy (·.club_code) rows).map Prod.fst := by
  rw [aggregates, List.map_map]
  rfl

theorem aggregates_of_perm (sqrt : K → K) (hrows : rows.Perm rows') :
    ((aggregates (Numbers.exact sqrt) rows).map (·.ordered)).Perm
      ((aggregates (Numbers.exact sqrt) rows').map (·.ordered)) := by
  rw [ordered_aggregates, ordered_aggregates, codes_aggregates, codes_aggregates]
  have hclub (code : ClubValue) :
      ((rows.filter (·.club_code = code) : List StatsRow) : Multiset StatsRow) =
        ((rows'.filter (·.club_code = code) : List StatsRow) : Multiset StatsRow) :=
    Multiset.coe_eq_coe.mpr (hrows.filter _)
  simp only [hclub]
  exact ((Grouping.grouped_groupBy _ rows).keys_perm (Grouping.grouped_groupBy _ rows') hrows).map _

/--
The entries of the clubs depend on the set of the rows alone. Every club of a
row has one entry, and what it says is worked out from the rows of that club.
-/
theorem aggregates_of_set (sqrt : K → K) (hrows : rows.Perm rows') :
    ((aggregates (Numbers.exact sqrt) rows).map (·.ordered)).Perm
        ((aggregates (Numbers.exact sqrt) rows').map (·.ordered)) ∧
      ((aggregates (Numbers.exact sqrt) rows).map (·.club_code)).Nodup ∧
      (∀ code, code ∈ (aggregates (Numbers.exact sqrt) rows).map (·.club_code) ↔
        ∃ row ∈ rows, row.club_code = code) ∧
      ((aggregates (Numbers.exact sqrt) rows).map (·.sample_size)).sum = rows.length ∧
      ∀ club ∈ aggregates (Numbers.exact sqrt) rows,
        club.ordered = clubFigures sqrt club.club_code
          ((rows.filter (·.club_code = club.club_code) : List StatsRow) : Multiset StatsRow) := by
  have hgrouped := Grouping.grouped_groupBy (·.club_code) rows
  refine ⟨aggregates_of_perm sqrt hrows, ?_, fun code => ?_, sum_sample_size _ rows,
    fun club hclub => ordered_eq_clubFigures sqrt rows hclub⟩
  · rw [codes_aggregates]
    exact hgrouped.nodup
  · rw [codes_aggregates]
    exact hgrouped.mem_keys

def driverRow : StatsRow :=
  { club_code := .code .dr, vendor := .trackpro, ball_speed_mps := 70, launch_angle_deg := 12
    carry_m := 240, lateral_m := -3, spin_rpm := some 2600 }

/-- From a vendor that measures no spin. -/
def spinlessRow : StatsRow :=
  { driverRow with vendor := .swingmetric, carry_m := 232, spin_rpm := none }

theorem aggregates_of_set_swapped :
    [driverRow, spinlessRow] ≠ [spinlessRow, driverRow] ∧
      ((aggregates (Numbers.exact Numbers.ofFractions.sqrt) [driverRow, spinlessRow]).map
          (·.ordered)).Perm
        ((aggregates (Numbers.exact Numbers.ofFractions.sqrt) [spinlessRow, driverRow]).map
          (·.ordered)) :=
  ⟨by decide, (aggregates_of_set Numbers.ofFractions.sqrt (List.Perm.swap _ _ _)).1⟩

end Aggregates

end PureplayIngest.Stats
