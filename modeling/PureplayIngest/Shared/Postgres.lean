import Mathlib.Data.String.Basic
import PureplayIngest.Shared.Domain.Shot
import PureplayIngest.Shared.IsoDateTime

/-!
What the queries with parameters need of PostgreSQL: how it reads a parameter
as a timestamp or as a string, and in which order it has strings.

A parameter is whatever JavaScript value the driver is given. Timestamps are
counted in microseconds. `κ` is what a collation compares strings by.
-/

namespace PureplayIngest.Shared

open Domain Lib

structure Postgres (κ : Type) where
  /-- A parameter compared with a `TIMESTAMPTZ` column; `none` when it is rejected. -/
  timestamptz : Json → Option ℤ
  /-- A parameter compared with a `VARCHAR` column. -/
  varchar : Json → Option String
  sortKey : String → κ

/-- The first instant of year 1 and the last of year 9999. -/
def minTimestamp : ℤ := -62135596800000

def maxTimestamp : ℤ := 253402300799999

/-- What is documented of the functions above. A year before 1, or with a sign
and six digits, is not read; no string holds the character 0; and a
deterministic collation tells different strings apart. -/
structure Postgres.Documented {κ : Type} (pg : Postgres κ) : Prop where
  timestamptz_iso (t : ℤ) (h : -maxTimeValue ≤ t ∧ t ≤ maxTimeValue) :
    pg.timestamptz (.str (isoString t)) =
      if minTimestamp ≤ t ∧ t ≤ maxTimestamp then some (t * 1000) else none
  varchar_str (s : String) :
    pg.varchar (.str s) = if '\x00' ∈ s.toList then none else some s
  sortKey_injective : Function.Injective pg.sortKey

namespace Postgres

/-- The readings of strings, with the collation that compares code points. -/
def ofStrings : Postgres String where
  timestamptz
    | .str s => (scanDateTime s).bind fun parts =>
        if minTimestamp ≤ parts.timeValue ∧ parts.timeValue ≤ maxTimestamp then
          some (parts.timeValue * 1000)
        else none
    | _ => none
  varchar
    | .str s => if '\x00' ∈ s.toList then none else some s
    | _ => none
  sortKey := id

theorem yearOf_of_bounds {t : ℤ} (h : minTimestamp ≤ t ∧ t ≤ maxTimestamp) :
    0 ≤ yearOf t ∧ yearOf t ≤ 9999 := by
  unfold minTimestamp maxTimestamp at h
  exact civilFromDays_year (by unfold msPerDay; omega)

theorem documented_ofStrings : ofStrings.Documented where
  timestamptz_iso t _ := by
    simp only [ofStrings]
    by_cases hyear : 0 ≤ yearOf t ∧ yearOf t ≤ 9999
    · rw [scanDateTime_isoString hyear, Option.bind_some, timeValue_partsOf hyear.1]
    · rw [scanDateTime_signed hyear, if_neg fun h => hyear (yearOf_of_bounds h)]
      rfl
  varchar_str s := rfl
  sortKey_injective := Function.injective_id

end Postgres

end PureplayIngest.Shared
