import PureplayIngest.Shared.Domain.Units
import PureplayIngest.Webhooks.Trackpro

/-!
ProSwing payloads in the three wire formats, the canonical payload all of
them are turned into, and its parser.
-/

namespace PureplayIngest.Webhooks

open Shared Shared.Domain Ingestion

inductive SpeedUnit
  | mph | kph | mps
  deriving DecidableEq, Repr

def SpeedUnit.toString : SpeedUnit → String
  | .mph => "mph" | .kph => "kph" | .mps => "mps"

inductive DistanceUnit
  | yd | m | ft
  deriving DecidableEq, Repr

def DistanceUnit.toString : DistanceUnit → String
  | .yd => "yd" | .m => "m" | .ft => "ft"

/-! ### Wire formats -/

/-- `ProswingBallSpeedSchema`; `notMistagged` is its `superRefine`. -/
structure ProswingBallSpeed where
  value : ZNumber 0 500
  unit : SpeedUnit
  notMistagged : unit = .mps → value.value ≤ 120

structure ProswingClubSpeed where
  value : ZNumber 0 300
  unit : SpeedUnit

structure ProswingDistance where
  value : ZNumber (-500) 700
  unit : DistanceUnit

structure ProswingShotV1 where
  id : ZString 1 255
  occurred_at : IsoDateTime
  club_code : ZString 1 64
  ball_speed : ProswingBallSpeed
  club_speed : Option ProswingClubSpeed
  launch : ZNumber (-10) 90
  carry : ProswingDistance
  total : Option ProswingDistance
  deviation : ProswingDistance

structure ProswingPayloadV1 where
  user_token : ZString 8 255
  shot : ProswingShotV1

/-- `ProswingShotV2Schema`; the last three fields are its `superRefine`. -/
structure ProswingShotV2 where
  id : ZString 1 255
  occurred_at : IsoDateTime
  club_code : ZString 1 64
  ball_speed_mph : Option (ZNumber 0 268)
  ball_speed_kph : Option (ZNumber 0 430)
  ball_speed_mps : Option (ZNumber 0 120)
  club_speed_mph : Option (ZNumber 0 230)
  club_speed_kph : Option (ZNumber 0 370)
  club_speed_mps : Option (ZNumber 0 103)
  launch_deg : ZNumber (-10) 90
  carry_yd : Option (ZNumber 0 600)
  carry_m : Option (ZNumber 0 550)
  total_yd : Option (ZNumber 0 700)
  total_m : Option (ZNumber 0 640)
  deviation_yd : Option (ZNumber (-500) 500)
  deviation_m : Option (ZNumber (-500) 500)
  deviation_ft : Option (ZNumber (-1500) 1500)
  hasBallSpeed : ball_speed_mph.isNone → ball_speed_kph.isNone → ball_speed_mps.isSome
  hasCarry : carry_yd.isNone → carry_m.isSome
  hasDeviation : deviation_yd.isNone → deviation_m.isNone → deviation_ft.isSome

structure ProswingPayloadV2 where
  user_token : ZString 8 255
  shot : ProswingShotV2

structure ProswingShotV3 where
  id : ZString 1 255
  occurred_at : IsoDateTime
  club_code : ZString 1 64
  ball_speed : ProswingBallSpeed
  club_speed : Option ProswingClubSpeed
  launch_angle : ZNumber (-10) 90
  spin_rpm : Option (ZInt 0 15000)
  carry : ProswingDistance
  total : Option ProswingDistance
  deviation : ProswingDistance

structure ProswingPayloadV3 where
  player_id : ZString 1 255
  device_id : Option (ZString 1 255)
  shot : ProswingShotV3

/-! ### The canonical payload -/

structure Speed where
  value : ℚ
  unit : SpeedUnit

structure Distance where
  value : ℚ
  unit : DistanceUnit

structure ProswingCanonicalShot where
  id : String
  occurred_at : IsoDateTime
  club_code : String
  ball_speed : Speed
  club_speed : Option Speed
  launch : ℚ
  spin_rpm : Option ℤ
  carry : Distance
  total : Option Distance
  deviation : Distance

structure ProswingCanonicalPayload where
  user_token : String
  shot : ProswingCanonicalShot

def ProswingBallSpeed.speed (s : ProswingBallSpeed) : Speed := ⟨s.value.value, s.unit⟩
def ProswingClubSpeed.speed (s : ProswingClubSpeed) : Speed := ⟨s.value.value, s.unit⟩
def ProswingDistance.distance (d : ProswingDistance) : Distance := ⟨d.value.value, d.unit⟩

/-- A V1 payload already has the canonical shape. -/
def fromV1 (p : ProswingPayloadV1) : ProswingCanonicalPayload where
  user_token := p.user_token.value
  shot := {
    id := p.shot.id.value
    occurred_at := p.shot.occurred_at
    club_code := p.shot.club_code.value
    ball_speed := p.shot.ball_speed.speed
    club_speed := p.shot.club_speed.map (·.speed)
    launch := p.shot.launch.value
    spin_rpm := none
    carry := p.shot.carry.distance
    total := p.shot.total.map (·.distance)
    deviation := p.shot.deviation.distance }

/-- The first populated ball speed, mph before kph before mps. -/
def ProswingShotV2.ballSpeed (s : ProswingShotV2) : Speed :=
  match hmph : s.ball_speed_mph with
  | some x => ⟨x.value, .mph⟩
  | none =>
      match hkph : s.ball_speed_kph with
      | some x => ⟨x.value, .kph⟩
      | none => ⟨(s.ball_speed_mps.get (s.hasBallSpeed (by simp [hmph]) (by simp [hkph]))).value,
          .mps⟩

def ProswingShotV2.clubSpeed (s : ProswingShotV2) : Option Speed :=
  match s.club_speed_mph with
  | some x => some ⟨x.value, .mph⟩
  | none =>
      match s.club_speed_kph with
      | some x => some ⟨x.value, .kph⟩
      | none => s.club_speed_mps.map fun x => ⟨x.value, .mps⟩

def ProswingShotV2.carry (s : ProswingShotV2) : Distance :=
  match hyd : s.carry_yd with
  | some x => ⟨x.value, .yd⟩
  | none => ⟨(s.carry_m.get (s.hasCarry (by simp [hyd]))).value, .m⟩

def ProswingShotV2.total (s : ProswingShotV2) : Option Distance :=
  match s.total_yd with
  | some x => some ⟨x.value, .yd⟩
  | none => s.total_m.map fun x => ⟨x.value, .m⟩

def ProswingShotV2.deviation (s : ProswingShotV2) : Distance :=
  match hyd : s.deviation_yd with
  | some x => ⟨x.value, .yd⟩
  | none =>
      match hm : s.deviation_m with
      | some x => ⟨x.value, .m⟩
      | none => ⟨(s.deviation_ft.get (s.hasDeviation (by simp [hyd]) (by simp [hm]))).value, .ft⟩

def fromV2 (p : ProswingPayloadV2) : ProswingCanonicalPayload where
  user_token := p.user_token.value
  shot := {
    id := p.shot.id.value
    occurred_at := p.shot.occurred_at
    club_code := p.shot.club_code.value
    ball_speed := p.shot.ballSpeed
    club_speed := p.shot.clubSpeed
    launch := p.shot.launch_deg.value
    spin_rpm := none
    carry := p.shot.carry
    total := p.shot.total
    deviation := p.shot.deviation }

/-- The device of a V3 payload is dropped. -/
def fromV3 (p : ProswingPayloadV3) : ProswingCanonicalPayload where
  user_token := p.player_id.value
  shot := {
    id := p.shot.id.value
    occurred_at := p.shot.occurred_at
    club_code := p.shot.club_code.value
    ball_speed := p.shot.ball_speed.speed
    club_speed := p.shot.club_speed.map (·.speed)
    launch := p.shot.launch_angle.value
    spin_rpm := p.shot.spin_rpm.map (·.value)
    carry := p.shot.carry.distance
    total := p.shot.total.map (·.distance)
    deviation := p.shot.deviation.distance }

/-- A payload one of the three schemas accepted. -/
inductive ProswingAccepted
  | v1 (p : ProswingPayloadV1)
  | v2 (p : ProswingPayloadV2)
  | v3 (p : ProswingPayloadV3)

def ProswingAccepted.canonical : ProswingAccepted → ProswingCanonicalPayload
  | .v1 p => fromV1 p
  | .v2 p => fromV2 p
  | .v3 p => fromV3 p

def Speed.toJson (s : Speed) : Json :=
  .obj [("value", .num s.value), ("unit", .str s.unit.toString)]

def Distance.toJson (d : Distance) : Json :=
  .obj [("value", .num d.value), ("unit", .str d.unit.toString)]

def ProswingCanonicalShot.toJson (s : ProswingCanonicalShot) : Json :=
  .obj ([("id", .str s.id), ("occurred_at", .str s.occurred_at.text),
      ("club_code", .str s.club_code), ("ball_speed", s.ball_speed.toJson)] ++
    Json.field? "club_speed" Speed.toJson s.club_speed ++
    [("launch", .obj [("value", .num s.launch), ("unit", .str "deg")])] ++
    Json.field? "spin_rpm" (fun n : ℤ => .num n) s.spin_rpm ++
    [("carry", s.carry.toJson)] ++
    Json.field? "total" Distance.toJson s.total ++
    [("deviation", s.deviation.toJson)])

def ProswingCanonicalPayload.toJson (p : ProswingCanonicalPayload) : Json :=
  .obj [("type", .str "shot.recorded"),
    ("data", .obj [("user_token", .str p.user_token), ("shot", p.shot.toJson)])]

/-! ### The parser -/

def convertSpeed (value : ℚ) (unit : String) : Except JsError ℚ :=
  if unit = "mph" then .ok (mphToMps value)
  else if unit = "kph" then .ok (kphToMps value)
  else if unit = "mps" then .ok (mpsToMps value)
  else .error (.internalServerError ("Unhandled speed unit in ProSwing parser: '" ++ unit ++
    "'. Update the converter to match the schema."))

def convertDistance (value : ℚ) (unit : String) : Except JsError ℚ :=
  if unit = "yd" then .ok (ydToM value)
  else if unit = "m" then .ok value
  else if unit = "ft" then .ok (ftToM value)
  else .error (.internalServerError ("Unhandled distance unit in ProSwing parser: '" ++ unit ++
    "'. Update the converter to match the schema."))

/-- `convertSpeed` or `convertDistance` where the measurement may be absent. -/
def convertOptional {α : Type} (convert : α → Except JsError ℚ) :
    Option α → Except JsError (Option ℚ)
  | none => .ok none
  | some a => (convert a).map some

/-- The offset `/([+-])(\d{2}):(\d{2})$/` finds at the end of the string, in minutes. -/
def tzMatch (occurred_at : String) : Option ℤ :=
  match occurred_at.toList.reverse with
  | m0 :: m1 :: colon :: h0 :: h1 :: sign :: _ =>
      if m0.isDigit && m1.isDigit && colon == ':' && h0.isDigit && h1.isDigit then
        let value (hi lo : Char) : ℤ := ((hi.toNat - 48) * 10 + (lo.toNat - 48) : ℕ)
        let minutes := value h1 h0 * 60 + value m1 m0
        if sign = '+' then some minutes
        else if sign = '-' then some (-minutes)
        else none
      else none
  | _ => none

def parseTzOffset (occurred_at : IsoDateTime) : Except JsError (ℤ × ℤ) := do
  let utc ← toISOString occurred_at.timeValue
  return (utc, (tzMatch occurred_at.text).getD 0)

/-- The conversions are total on the units the schemas admit. -/
def Speed.toMps (s : Speed) : ℚ :=
  match s.unit with
  | .mph => mphToMps s.value
  | .kph => kphToMps s.value
  | .mps => mpsToMps s.value

def Distance.toM (d : Distance) : ℚ :=
  match d.unit with
  | .yd => ydToM d.value
  | .m => d.value
  | .ft => ftToM d.value

theorem convertSpeed_unit (s : Speed) : convertSpeed s.value s.unit.toString = .ok s.toMps := by
  obtain ⟨value, unit⟩ := s
  cases unit <;> rfl

theorem convertDistance_unit (d : Distance) :
    convertDistance d.value d.unit.toString = .ok d.toM := by
  obtain ⟨value, unit⟩ := d
  cases unit <;> rfl

theorem convertOptional_ok {α : Type} (f : α → ℚ) (a : Option α) :
    convertOptional (fun a => .ok (f a)) a = .ok (a.map f) := by
  cases a with
  | none => rfl
  | some a => rfl

def ProswingCanonicalPayload.idempotencyKey (payload : ProswingCanonicalPayload) : String :=
  "ps|" ++ payload.user_token ++ "|" ++ payload.shot.id

/-- The shot `parseProswing` builds from what it has computed. -/
def proswingShot (sha256 : String → String) (ulid : String) (payload : ProswingCanonicalPayload)
    (receivedAtUtc capturedAtUtc offsetMin : ℤ) (ballSpeedMps carryM lateralM : ℚ)
    (totalM clubHeadSpeedMps : Option ℚ) : NormalisedShot where
  canonical_shot_id := ulid
  vendor := .proswing
  vendor_shot_id := some payload.shot.id
  idempotency_key := payload.idempotencyKey
  vendor_user_id := payload.user_token
  canonical_user_id := none
  captured_at_utc := capturedAtUtc
  captured_at_tz_offset_min := some offsetMin
  received_at_utc := receivedAtUtc
  club_code := normaliseClub payload.shot.club_code
  club_raw := payload.shot.club_code
  ball_speed_mps := ballSpeedMps
  club_head_speed_mps := clubHeadSpeedMps
  launch_angle_deg := payload.shot.launch
  spin_rpm := payload.shot.spin_rpm
  carry_m := carryM
  total_m := totalM
  lateral_m := lateralM
  device_id := none
  session_id := none
  content_hash := computeContentHash sha256 {
    vendor_user_id := payload.user_token
    club_code := normaliseClub payload.shot.club_code
    captured_at_utc := isoString capturedAtUtc
    ball_speed_mps := ballSpeedMps
    launch_angle_deg := payload.shot.launch
    carry_m := carryM
    lateral_m := lateralM }
  schema_version := 1
  parser_version := parserVersion
  duplicate_of := none
  raw_payload := payload.toJson

def parseProswing (sha256 : String → String) (ulid : ℕ → String)
    (payload : ProswingCanonicalPayload) (receivedAtUtc : ℤ) :
    Except JsError (List NormalisedShot) := do
  let shot := payload.shot
  let (capturedAtUtc, offsetMin) ← parseTzOffset shot.occurred_at
  let ballSpeedMps ← convertSpeed shot.ball_speed.value shot.ball_speed.unit.toString
  let carryM ← convertDistance shot.carry.value shot.carry.unit.toString
  let lateralM ← convertDistance shot.deviation.value shot.deviation.unit.toString
  let totalM ← convertOptional (fun d : Distance => convertDistance d.value d.unit.toString)
    shot.total
  let clubHeadSpeedMps ← convertOptional (fun s : Speed => convertSpeed s.value s.unit.toString)
    shot.club_speed
  return [proswingShot sha256 (ulid 0) payload receivedAtUtc capturedAtUtc offsetMin ballSpeedMps
    carryM lateralM totalM clubHeadSpeedMps]

/-- Once the units are the schemas', only the time can make the parser throw. -/
theorem parseProswing_eq (sha256 : String → String) (ulid : ℕ → String)
    (payload : ProswingCanonicalPayload) (receivedAtUtc : ℤ) :
    parseProswing sha256 ulid payload receivedAtUtc =
      (toISOString payload.shot.occurred_at.timeValue).map fun capturedAtUtc =>
        [proswingShot sha256 (ulid 0) payload receivedAtUtc capturedAtUtc
          ((tzMatch payload.shot.occurred_at.text).getD 0) payload.shot.ball_speed.toMps
          payload.shot.carry.toM payload.shot.deviation.toM (payload.shot.total.map (·.toM))
          (payload.shot.club_speed.map (·.toMps))] := by
  simp only [parseProswing, parseTzOffset, convertSpeed_unit, convertDistance_unit,
    convertOptional_ok]
  cases toISOString payload.shot.occurred_at.timeValue <;> rfl

theorem parseProswing_ok {sha256 : String → String} {ulid : ℕ → String}
    {payload : ProswingCanonicalPayload} {receivedAtUtc : ℤ} {shots : List NormalisedShot}
    (h : parseProswing sha256 ulid payload receivedAtUtc = .ok shots) :
    shots = [proswingShot sha256 (ulid 0) payload receivedAtUtc payload.shot.occurred_at.timeValue
      ((tzMatch payload.shot.occurred_at.text).getD 0) payload.shot.ball_speed.toMps
      payload.shot.carry.toM payload.shot.deviation.toM (payload.shot.total.map (·.toM))
      (payload.shot.club_speed.map (·.toMps))] := by
  rw [parseProswing_eq] at h
  cases hiso : toISOString payload.shot.occurred_at.timeValue with
  | error e => simp [hiso, Except.map] at h
  | ok capturedAtUtc =>
      obtain rfl := toISOString_ok hiso
      simpa [hiso, Except.map] using h.symm

end PureplayIngest.Webhooks
