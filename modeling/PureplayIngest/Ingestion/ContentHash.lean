import Mathlib.Algebra.Order.Floor.Semiring
import Mathlib.Data.Rat.Floor
import PureplayIngest.Shared.Domain.Shot
import PureplayIngest.Shared.JsDate

/-!
The content hash of a shot, on which near-duplicate detection compares.

SHA-256 is a parameter `sha256` throughout: a function from the text that is
hashed to the hex digest. Numbers are rationals, so `Math.round` is a floor
and `toFixed` writes an exact numeral.
-/

namespace PureplayIngest.Ingestion

open Shared Shared.Domain Lib

structure ContentHashInput where
  vendor_user_id : String
  club_code : ClubValue
  captured_at_utc : String
  ball_speed_mps : ℚ
  launch_angle_deg : ℚ
  carry_m : ℚ
  lateral_m : ℚ

/-- `isoUtc.slice(0, 16)`. -/
def minuteBucket (isoUtc : String) : String := String.ofList (isoUtc.toList.take 16)

/-- `Math.round`: to the nearest integer, halves up. -/
def mathRound (x : ℚ) : ℤ := ⌊x + 1 / 2⌋

def round (value : ℚ) (decimals : ℕ) : ℚ :=
  let factor : ℚ := 10 ^ decimals
  mathRound (value * factor) / factor

/-- `Number.prototype.toFixed` for numbers below 10^21: the magnitude rounded
to `f` decimals, with the sign in front. -/
def toFixed (x : ℚ) (f : ℕ) : String :=
  let n := (mathRound (|x| * 10 ^ f)).toNat
  let whole := toString (n / 10 ^ f)
  let digits := if f = 0 then whole else whole ++ "." ++ String.ofList (pad f (n % 10 ^ f))
  if x < 0 then "-" ++ digits else digits

/-- The seven parts that are joined and hashed. -/
def hashParts (input : ContentHashInput) : List String :=
  [input.vendor_user_id,
    input.club_code.toString,
    minuteBucket input.captured_at_utc,
    toFixed (round input.ball_speed_mps 1) 1,
    toFixed (round input.launch_angle_deg 1) 1,
    toFixed (round input.carry_m 0) 0,
    toFixed (round input.lateral_m 0) 0]

def hashText (input : ContentHashInput) : String := String.intercalate "|" (hashParts input)

def computeContentHash (sha256 : String → String) (input : ContentHashInput) : String :=
  sha256 (hashText input)

/-- What the hash is computed from, for a shot taken to be captured at `captured`. -/
def hashInputAt (shot : ShotWithoutPayload) (captured : ℤ) : ContentHashInput where
  vendor_user_id := shot.vendor_user_id
  club_code := shot.club_code
  captured_at_utc := isoString captured
  ball_speed_mps := shot.ball_speed_mps
  launch_angle_deg := shot.launch_angle_deg
  carry_m := shot.carry_m
  lateral_m := shot.lateral_m

example : mathRound (-5 / 2) = -2 := by decide +kernel
example : toFixed (round (-31 / 20) 1) 1 = "-1.5" := by decide +kernel

end PureplayIngest.Ingestion
