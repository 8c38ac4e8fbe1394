import Mathlib.Data.List.GetD
import PureplayIngest.Stats.ClubAggregates

/-!
What holds of the percentiles of an ascending list, in exact arithmetic.

The index of a percentile falls on an element or between two. Both reads are
made without a check; that they stay inside the list, and that the result
moves with the percentile and with the values, comes down to interpolation
along an ascending sequence (`Lib.Statistics`).
-/

namespace PureplayIngest.Stats

open Shared Shared.Domain Lib Statistics

/-- The `idx` of `percentile`, for a list of that length. -/
def Numbers.percentileIdx {ν : Type} (numbers : Numbers ν) (length : ℕ) (p : ℚ) : ν :=
  numbers.mul (numbers.div (numbers.ofRat p) (numbers.ofRat 100))
    (numbers.ofRat (length - 1 : ℕ))

theorem percentile_eq {ν : Type} (numbers : Numbers ν) {sorted : List ν} (hne : sorted ≠ [])
    (p : ℚ) :
    let idx := numbers.percentileIdx sorted.length p
    let at_ (i : ℕ) := sorted.getD i (numbers.ofRat 0)
    numbers.percentile sorted p =
      if numbers.floor idx = numbers.ceil idx then at_ (numbers.floor idx)
      else numbers.add (at_ (numbers.floor idx))
        (numbers.mul (numbers.sub (at_ (numbers.ceil idx)) (at_ (numbers.floor idx)))
          (numbers.sub idx (numbers.ofRat (numbers.floor idx)))) :=
  if_neg (mt List.eq_nil_of_length_eq_zero hne)

variable {K : Type} [Field K] [LinearOrder K]

/-- What `percentile` makes of a list, for percentiles from 0 to 100. -/
structure WellBehaved (numbers : Numbers K) (sorted : List K) : Prop where
  inside {p : ℚ} (nonneg : 0 ≤ p) (le : p ≤ 100) :
    numbers.floor (numbers.percentileIdx sorted.length p) < sorted.length ∧
      numbers.ceil (numbers.percentileIdx sorted.length p) < sorted.length
  extremes {p : ℚ} (nonneg : 0 ≤ p) (le : p ≤ 100) :
    (∃ low ∈ sorted.min?, low ≤ numbers.percentile sorted p) ∧
      ∃ high ∈ sorted.max?, numbers.percentile sorted p ≤ high
  /-- The two elements that are read. -/
  neighbours {p : ℚ} (nonneg : 0 ≤ p) (le : p ≤ 100) :
    (∃ below ∈ sorted[numbers.floor (numbers.percentileIdx sorted.length p)]?,
        below ≤ numbers.percentile sorted p) ∧
      ∃ above ∈ sorted[numbers.ceil (numbers.percentileIdx sorted.length p)]?,
        numbers.percentile sorted p ≤ above
  mono {p q : ℚ} (nonneg : 0 ≤ p) (le : p ≤ q) (le' : q ≤ 100) :
    numbers.percentile sorted p ≤ numbers.percentile sorted q
  /-- Elements are raised, whether or not the list stays ascending. -/
  mono_data {p : ℚ} (nonneg : 0 ≤ p) (le : p ≤ 100) {raised : List K}
    (raise : List.Forall₂ (· ≤ ·) sorted raised) :
    numbers.percentile sorted p ≤ numbers.percentile raised p

section

variable [FloorSemiring K] {sqrt : K → K} {sorted raised : List K} {p q : ℚ}

omit [FloorSemiring K] in
theorem getD_monotoneOn (hsorted : sorted.Pairwise (· ≤ ·)) :
    MonotoneOn (fun i => sorted.getD i 0) (Set.Iic (sorted.length - 1)) := by
  intro i hi j hj hij
  rcases Nat.eq_zero_or_pos sorted.length with hzero | hpos
  · rw [List.eq_nil_of_length_eq_zero hzero]
    exact le_rfl
  · have hi' : i < sorted.length := by rw [Set.mem_Iic] at hi; omega
    have hj' : j < sorted.length := by rw [Set.mem_Iic] at hj; omega
    simp only [List.getD_eq_getElem _ _ hi', List.getD_eq_getElem _ _ hj']
    rcases hij.lt_or_eq with hlt | rfl
    · exact List.pairwise_iff_getElem.mp hsorted i j hi' hj' hlt
    · exact le_rfl

theorem percentileIdx_exact (sqrt : K → K) (length : ℕ) (p : ℚ) :
    (Numbers.exact sqrt).percentileIdx length p = (p : K) / 100 * ((length - 1 : ℕ) : K) := by
  simp only [Numbers.percentileIdx, Numbers.exact, Rat.cast_natCast, Rat.cast_ofNat]

theorem percentile_interpolate (hne : sorted ≠ []) (p : ℚ) :
    (Numbers.exact sqrt).percentile sorted p =
      interpolate (fun i => sorted.getD i 0)
        ((Numbers.exact sqrt).percentileIdx sorted.length p) := by
  rw [percentile_eq _ hne, interpolate, AffineMap.lineMap_apply_ring', mul_comm, add_comm]
  simp only [Numbers.exact, Rat.cast_natCast, Rat.cast_zero]
  split
  · rename_i h
    rw [← h, sub_self, zero_mul, add_zero]
  · rfl

variable [IsStrictOrderedRing K]

theorem percentileIdx_nonneg (hp : 0 ≤ p) (length : ℕ) :
    0 ≤ (Numbers.exact sqrt).percentileIdx length p := by
  rw [percentileIdx_exact]
  have hcast : (0 : K) ≤ p := Rat.cast_nonneg.mpr hp
  positivity

theorem percentileIdx_mono (hpq : p ≤ q) (length : ℕ) :
    (Numbers.exact sqrt).percentileIdx length p ≤ (Numbers.exact sqrt).percentileIdx length q := by
  rw [percentileIdx_exact, percentileIdx_exact]
  have hcast : (p : K) ≤ q := Rat.cast_le.mpr hpq
  gcongr

variable (sqrt) in
/-- The index is at most the last one. -/
theorem percentileIdx_le (hp : p ≤ 100) (length : ℕ) :
    (Numbers.exact sqrt).percentileIdx length p ≤ ((length - 1 : ℕ) : K) := by
  rw [percentileIdx_exact]
  have hcast : (p : K) ≤ (100 : ℚ) := Rat.cast_le.mpr hp
  rw [Rat.cast_ofNat] at hcast
  apply mul_le_of_le_one_left (Nat.cast_nonneg _)
  exact (div_le_one (by norm_num)).mpr hcast

variable (sqrt) in
/-- Both reads are inside the list. -/
theorem percentileIdx_lt (hne : sorted ≠ []) (hp : p ≤ 100) :
    ⌊(Numbers.exact sqrt).percentileIdx sorted.length p⌋₊ < sorted.length ∧
      ⌈(Numbers.exact sqrt).percentileIdx sorted.length p⌉₊ < sorted.length := by
  have hceil := Nat.ceil_le.mpr (percentileIdx_le sqrt hp sorted.length)
  have hfloor := Nat.floor_le_ceil ((Numbers.exact sqrt).percentileIdx sorted.length p)
  have hpos := List.length_pos_iff.mpr hne
  omega

theorem percentile_neighbours (hne : sorted ≠ []) (hsorted : sorted.Pairwise (· ≤ ·))
    (hp : 0 ≤ p) (hp' : p ≤ 100) :
    let idx := (Numbers.exact sqrt).percentileIdx sorted.length p
    ∃ below above, sorted[⌊idx⌋₊]? = some below ∧ sorted[⌈idx⌉₊]? = some above ∧
      below ≤ (Numbers.exact sqrt).percentile sorted p ∧
      (Numbers.exact sqrt).percentile sorted p ≤ above := by
  intro idx
  obtain ⟨hfloor, hceil⟩ := percentileIdx_lt sqrt hne hp'
  have hnonneg : 0 ≤ idx := percentileIdx_nonneg hp _
  have hle : ⌊idx⌋₊ ≤ ⌈idx⌉₊ := Nat.floor_le_ceil idx
  have hstep := getD_monotoneOn hsorted (Nat.le_sub_one_of_lt hfloor)
    (Nat.le_sub_one_of_lt hceil) hle
  refine ⟨_, _, List.getElem?_eq_getElem hfloor, List.getElem?_eq_getElem hceil, ?_, ?_⟩
  · rw [percentile_interpolate hne, ← List.getD_eq_getElem _ 0 hfloor]
    exact le_interpolate (f := fun i => sorted.getD i 0) hnonneg hstep
  · rw [percentile_interpolate hne, ← List.getD_eq_getElem _ 0 hceil]
    exact interpolate_le (f := fun i => sorted.getD i 0) hnonneg hstep

theorem percentile_mono (hne : sorted ≠ []) (hsorted : sorted.Pairwise (· ≤ ·)) (hp : 0 ≤ p)
    (hpq : p ≤ q) (hq : q ≤ 100) :
    (Numbers.exact sqrt).percentile sorted p ≤ (Numbers.exact sqrt).percentile sorted q := by
  rw [percentile_interpolate hne, percentile_interpolate hne]
  exact interpolate_mono (getD_monotoneOn hsorted) (percentileIdx_nonneg hp _)
    (percentileIdx_mono hpq _) (percentileIdx_le sqrt hq _)

theorem percentile_le_of_forall₂ (hne : sorted ≠ []) (hp : 0 ≤ p) (hp' : p ≤ 100)
    (hraise : List.Forall₂ (· ≤ ·) sorted raised) :
    (Numbers.exact sqrt).percentile sorted p ≤ (Numbers.exact sqrt).percentile raised p := by
  have hlength := hraise.length_eq
  have hne' : raised ≠ [] := by
    rw [← List.length_pos_iff, ← hlength]
    exact List.length_pos_iff.mpr hne
  have hle {i : ℕ} (hi : i < sorted.length) : sorted.getD i 0 ≤ raised.getD i 0 := by
    have hi' : i < raised.length := hlength ▸ hi
    rw [List.getD_eq_getElem _ _ hi, List.getD_eq_getElem _ _ hi']
    exact hraise.get hi hi'
  obtain ⟨hfloor, hceil⟩ := percentileIdx_lt sqrt hne hp'
  rw [percentile_interpolate hne, percentile_interpolate hne', ← hlength]
  exact interpolate_le_interpolate (percentileIdx_nonneg hp _) (hle hfloor) (hle hceil)

/--
The percentiles of an ascending list that is not empty: what `percentile`
reads is there, the result lies between it, and it moves with the percentile
and with the elements.
-/
theorem wellBehaved_percentile (sqrt : K → K) (hne : sorted ≠ [])
    (hsorted : sorted.Pairwise (· ≤ ·)) : WellBehaved (Numbers.exact sqrt) sorted where
  inside _ le := percentileIdx_lt sqrt hne le
  extremes nonneg le := by
    obtain ⟨below, above, hbelow, habove, hle, hge⟩ := percentile_neighbours hne hsorted nonneg le
    constructor
    · refine ⟨sorted.min hne, List.min?_eq_some_min hne, (?_ : sorted.min hne ≤ below).trans hle⟩
      exact List.min_le_of_mem (List.mem_of_getElem? hbelow)
    · refine ⟨sorted.max hne, List.max?_eq_some_max hne, hge.trans (?_ : above ≤ sorted.max hne)⟩
      exact List.le_max_of_mem (List.mem_of_getElem? habove)
  neighbours nonneg le := by
    obtain ⟨below, above, hbelow, habove, hle, hge⟩ := percentile_neighbours hne hsorted nonneg le
    exact ⟨⟨below, hbelow, hle⟩, above, habove, hge⟩
  mono nonneg le le' := percentile_mono hne hsorted nonneg le le'
  mono_data nonneg le _ raise := percentile_le_of_forall₂ hne nonneg le raise

/-- Three elements, so that the percentiles but 0, 50 and 100 fall between two. -/
theorem wellBehaved_percentile_three :
    WellBehaved (Numbers.exact Numbers.ofFractions.sqrt) [(1 : ℚ), 2, 5] :=
  wellBehaved_percentile _ (by decide) (by decide +kernel)

/-- The median a club is given is not above its ninetieth percentile. -/
theorem p50_le_p90 {rows : List StatsRow} {club : ClubAggregate K}
    (hclub : club ∈ aggregates (Numbers.exact sqrt) rows) :
    (∀ x ∈ club.carry_m.p50, ∀ y ∈ club.carry_m.p90, x ≤ y) ∧
      ∀ x ∈ club.lateral_m.p50, ∀ y ∈ club.lateral_m.p90, x ≤ y := by
  obtain ⟨⟨row, hrow, hcode⟩, heq⟩ := (mem_aggregates _).mp hclub
  have hmem : row ∈ rows.filter (·.club_code = club.club_code) :=
    List.mem_filter.mpr ⟨hrow, decide_eq_true hcode⟩
  have hstats (isLowSample : Bool) (f : StatsRow → ℚ) :
      let stats := numericStats (Numbers.exact sqrt) isLowSample ((Numbers.exact sqrt).sort
        ((rows.filter (·.club_code = club.club_code)).map fun s =>
          (Numbers.exact sqrt).ofRat (f s)))
      ∀ x ∈ stats.p50, ∀ y ∈ stats.p90, x ≤ y := by
    intro stats x hx y hy
    cases isLowSample with
    | true => exact absurd hx (by simp [stats, numericStats])
    | false =>
        obtain rfl := Option.some.inj hx
        obtain rfl := Option.some.inj hy
        rw [sort_exact]
        refine percentile_mono ?_ (Multiset.pairwise_sort _ _) (by norm_num) (by norm_num)
          (by norm_num)
        rw [← List.length_pos_iff, Multiset.length_sort, Multiset.coe_card,
          List.length_map]
        exact List.length_pos_of_mem hmem
  rw [heq]
  exact ⟨hstats _ _, hstats _ _⟩

end

end PureplayIngest.Stats
