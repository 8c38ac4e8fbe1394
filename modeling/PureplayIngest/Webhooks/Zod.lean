import Mathlib.Data.Rat.Defs
import Mathlib.Algebra.Order.Ring.Rat
import PureplayIngest.Shared.Domain.Shot

/-!
The constraints the payload schemas put on single values. A value that passed
its schema carries the proof that it did, so the parsers, and everything
proved about them, start from the schemas' bounds.
-/

namespace PureplayIngest.Webhooks

/-- `String.prototype.length`, which counts UTF-16 code units: two for the
characters outside the basic plane. -/
def utf16Length (s : String) : ℕ :=
  s.length + s.toList.countP fun ch => 0x10000 ≤ ch.toNat

/-- `z.string().min(lo).max(hi)`. -/
structure ZString (lo hi : ℕ) where
  value : String
  min : lo ≤ utf16Length value
  max : utf16Length value ≤ hi

/-- `z.number().min(lo).max(hi)`. -/
structure ZNumber (lo hi : ℚ) where
  value : ℚ
  min : lo ≤ value
  max : value ≤ hi

/-- `z.number().int().min(lo).max(hi)`. -/
structure ZInt (lo hi : ℤ) where
  value : ℤ
  min : lo ≤ value
  max : value ≤ hi

/-- The schemas' `int()` admits the safe integers only. -/
def maxSafeInteger : ℤ := 9007199254740991

/-- The columns count characters, the schemas count code units, of which there
are never fewer. -/
theorem length_le_utf16Length (s : String) : s.length ≤ utf16Length s :=
  Nat.le_add_right ..

theorem ZString.length_le {lo hi : ℕ} (s : ZString lo hi) : s.value.length ≤ hi :=
  (length_le_utf16Length s.value).trans s.max

end PureplayIngest.Webhooks
