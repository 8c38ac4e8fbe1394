import Mathlib.Data.Rat.Defs
import PureplayIngest.Shared.Domain.ClubCode

/-!
The normalised shot: what every vendor's payload is turned into, what a job
of the queue carries, and what a row of the `shots` table holds.
-/

namespace PureplayIngest.Shared.Domain

inductive Vendor
  | trackpro
  | swingmetric
  | proswing
  deriving DecidableEq, Repr

def Vendor.toString : Vendor → String
  | .trackpro => "trackpro"
  | .swingmetric => "swingmetric"
  | .proswing => "proswing"

/-- `VALID_VENDORS`. -/
def validVendors : List Vendor := [.trackpro, .swingmetric, .proswing]

/-- `VALID_VENDORS.includes(s)`, with the vendor found. -/
def Vendor.ofString? (s : String) : Option Vendor := validVendors.find? fun v => v.toString = s

/-- A JSON document whose texts are of type `T`, object fields in the order they
are written. -/
inductive JsonOf (T : Type)
  | null
  | bool (b : Bool)
  | num (x : ℚ)
  | str (s : T)
  | arr (items : List (JsonOf T))
  | obj (fields : List (T × JsonOf T))

abbrev Json := JsonOf String

/-- A field that is written only when it has a value. -/
def Json.field? {α : Type} (name : String) (toJson : α → Json) : Option α → List (String × Json)
  | none => []
  | some a => [(name, toJson a)]

section

variable {T : Type}

mutual

/-- All strings of a value, the names of properties among them. -/
def textsOf : JsonOf T → List T
  | .str text => [text]
  | .arr items => textsOfItems items
  | .obj fields => textsOfFields fields
  | _ => []

def textsOfItems : List (JsonOf T) → List T
  | [] => []
  | item :: items => textsOf item ++ textsOfItems items

def textsOfFields : List (T × JsonOf T) → List T
  | [] => []
  | (name, value) :: fields => name :: (textsOf value ++ textsOfFields fields)

end

end

/-- A shot as the outbox stores it: every field but `raw_payload`. The two
timestamps are the instants their ISO strings denote. -/
structure ShotWithoutPayload where
  canonical_shot_id : String
  vendor : Vendor
  vendor_shot_id : Option String
  idempotency_key : String
  vendor_user_id : String
  canonical_user_id : Option String
  captured_at_utc : ℤ
  captured_at_tz_offset_min : Option ℤ
  received_at_utc : ℤ
  club_code : ClubValue
  club_raw : String
  ball_speed_mps : ℚ
  club_head_speed_mps : Option ℚ
  launch_angle_deg : ℚ
  spin_rpm : Option ℤ
  carry_m : ℚ
  total_m : Option ℚ
  lateral_m : ℚ
  device_id : Option String
  session_id : Option String
  content_hash : String
  schema_version : ℤ
  parser_version : String
  duplicate_of : Option String
  deriving DecidableEq

structure NormalisedShot extends ShotWithoutPayload where
  raw_payload : Json

end PureplayIngest.Shared.Domain
