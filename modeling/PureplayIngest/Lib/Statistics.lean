import Mathlib.Algebra.BigOperators.Group.Multiset.Basic
import Mathlib.Algebra.Field.Defs
import Mathlib.Algebra.Order.Floor.Semiring
import Mathlib.Data.Multiset.Sort
import Mathlib.LinearAlgebra.AffineSpace.Ordered

/-!
Mean, population variance and quantiles of a finite collection of numbers.

They are defined on multisets, so that none of them can depend on an order. A
quantile interpolates linearly between two neighbours in the sorted values.
How it moves with the place and with the values is said of any sequence that
ascends as far as the place.
-/

namespace PureplayIngest.Lib.Statistics

variable {K : Type*} [Field K] [LinearOrder K]

def mean (values : Multiset K) : K := values.sum / values.card

def variance (values : Multiset K) : K :=
  (values.map fun x => (x - mean values) ^ 2).sum / values.card

/-- The value at a place of the sorted values, counted from 0. -/
def orderStatistic (values : Multiset K) (i : ℕ) : K := (values.sort (· ≤ ·)).getD i 0

variable [FloorSemiring K]

def quantile (values : Multiset K) (q : K) : K :=
  let position := q * ((values.card - 1 : ℕ) : K)
  let below := orderStatistic values ⌊position⌋₊
  let above := orderStatistic values (⌊position⌋₊ + 1)
  below + (position - ⌊position⌋₊) * (above - below)

/-- The neighbour above is the same as the one below at a whole place. -/
theorem interpolate_eq [IsStrictOrderedRing K] (f : ℕ → K) {x : K} (hx : 0 ≤ x) :
    (if ⌊x⌋₊ = ⌈x⌉₊ then f ⌊x⌋₊ else f ⌊x⌋₊ + (f ⌈x⌉₊ - f ⌊x⌋₊) * (x - ⌊x⌋₊)) =
      f ⌊x⌋₊ + (x - ⌊x⌋₊) * (f (⌊x⌋₊ + 1) - f ⌊x⌋₊) := by
  split
  · rename_i h
    have hwhole : x = ⌊x⌋₊ := le_antisymm (h ▸ Nat.le_ceil x) (Nat.floor_le hx)
    rw [sub_eq_zero.mpr hwhole, zero_mul, add_zero]
  · rename_i h
    have hnext : ⌈x⌉₊ = ⌊x⌋₊ + 1 := by
      have hle := Nat.ceil_le_floor_add_one x
      have hge := Nat.floor_le_ceil x
      omega
    rw [hnext, mul_comm]

/-! ### Between two neighbours -/

/-- The value at a place on the line between the whole places around it. -/
def interpolate (f : ℕ → K) (x : K) : K := AffineMap.lineMap (f ⌊x⌋₊) (f ⌈x⌉₊) (x - ⌊x⌋₊)

variable [IsStrictOrderedRing K] {f g : ℕ → K} {x y : K} {n : ℕ}

theorem weight_bounds (hx : 0 ≤ x) : 0 ≤ x - ⌊x⌋₊ ∧ x - ⌊x⌋₊ ≤ 1 := by
  constructor
  · exact sub_nonneg.mpr (Nat.floor_le hx)
  · rw [sub_le_iff_le_add']
    exact (Nat.lt_floor_add_one x).le

theorem le_interpolate (hx : 0 ≤ x) (h : f ⌊x⌋₊ ≤ f ⌈x⌉₊) : f ⌊x⌋₊ ≤ interpolate f x := by
  have hmono := AffineMap.lineMap_mono (k := K) h (weight_bounds hx).1
  rwa [AffineMap.lineMap_apply_zero] at hmono

theorem interpolate_le (hx : 0 ≤ x) (h : f ⌊x⌋₊ ≤ f ⌈x⌉₊) : interpolate f x ≤ f ⌈x⌉₊ := by
  have hmono := AffineMap.lineMap_mono (k := K) h (weight_bounds hx).2
  rwa [AffineMap.lineMap_apply_one] at hmono

/-- It ascends wherever the sequence does. -/
theorem interpolate_mono (hf : MonotoneOn f (Set.Iic n)) (hx : 0 ≤ x) (hxy : x ≤ y) (hy : y ≤ n) :
    interpolate f x ≤ interpolate f y := by
  have hstep {z : K} (hz : z ≤ n) : f ⌊z⌋₊ ≤ f ⌈z⌉₊ := by
    have hceil : ⌈z⌉₊ ≤ n := Nat.ceil_le.mpr hz
    exact hf ((Nat.floor_le_ceil z).trans hceil) hceil (Nat.floor_le_ceil z)
  rcases le_or_gt ⌈x⌉₊ ⌊y⌋₊ with hapart | hgap
  · -- A whole place lies between the two.
    calc interpolate f x ≤ f ⌈x⌉₊ := interpolate_le hx (hstep (hxy.trans hy))
      _ ≤ f ⌊y⌋₊ := by
          have hfloor : ⌊y⌋₊ ≤ n := (Nat.floor_le_ceil y).trans (Nat.ceil_le.mpr hy)
          exact hf (hapart.trans hfloor) hfloor hapart
      _ ≤ interpolate f y := le_interpolate (hx.trans hxy) (hstep hy)
  · -- Both lie in one gap, and only the weight differs.
    have hfloors := Nat.floor_mono hxy
    have hceils := Nat.ceil_mono hxy
    have hx' := Nat.ceil_le_floor_add_one x
    have hy' := Nat.ceil_le_floor_add_one y
    have hfloor : ⌊y⌋₊ = ⌊x⌋₊ := by omega
    have hceil : ⌈y⌉₊ = ⌈x⌉₊ := by omega
    rw [interpolate, interpolate, hfloor, hceil]
    exact AffineMap.lineMap_mono (hstep (hxy.trans hy)) (sub_le_sub_right hxy _)

theorem interpolate_le_interpolate (hx : 0 ≤ x) (hfloor : f ⌊x⌋₊ ≤ g ⌊x⌋₊)
    (hceil : f ⌈x⌉₊ ≤ g ⌈x⌉₊) : interpolate f x ≤ interpolate g x :=
  lineMap_mono_endpoints hfloor hceil (weight_bounds hx).1 (weight_bounds hx).2

end PureplayIngest.Lib.Statistics
