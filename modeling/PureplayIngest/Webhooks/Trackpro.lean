import PureplayIngest.Ingestion.ContentHash
import PureplayIngest.Shared.IsoDateTime
import PureplayIngest.Webhooks.Zod

/-!
TrackPro payloads and their parser.

Parsers take the values of the ULID generator as `ulid`: the `k`-th call a
parser makes gets `ulid k`.
-/

namespace PureplayIngest.Webhooks

open Shared Shared.Domain Ingestion

def isLowerHex (ch : Char) : Bool := ch.isDigit || ('a' ≤ ch && ch ≤ 'f')

/-- One test per character of `^tp-\d{4}-\d{2}-\d{2}-[a-f0-9]{8}$`. -/
def shotUidPattern : List (Char → Bool) :=
  [(· == 't'), (· == 'p'), (· == '-')] ++ List.replicate 4 Char.isDigit ++ [(· == '-')] ++
    List.replicate 2 Char.isDigit ++ [(· == '-')] ++ List.replicate 2 Char.isDigit ++
    [(· == '-')] ++ List.replicate 8 isLowerHex

def matchesAll : List (Char → Bool) → List Char → Bool
  | [], [] => true
  | test :: tests, ch :: chars => test ch && matchesAll tests chars
  | _, _ => false

theorem matchesAll_length {tests : List (Char → Bool)} {chars : List Char}
    (h : matchesAll tests chars = true) : chars.length = tests.length := by
  induction tests generalizing chars with
  | nil =>
      cases chars with
      | nil => rfl
      | cons ch chars => simp [matchesAll] at h
  | cons test tests ih =>
      cases chars with
      | nil => simp [matchesAll] at h
      | cons ch chars =>
          rw [matchesAll, Bool.and_eq_true] at h
          rw [List.length_cons, List.length_cons, ih h.2]

structure ShotUid where
  value : String
  wellFormed : matchesAll shotUidPattern value.toList = true

theorem ShotUid.length_eq (uid : ShotUid) : uid.value.length = 22 := by
  rw [← String.length_toList, matchesAll_length uid.wellFormed]
  rfl

structure TrackproPayload where
  shot_uid : ShotUid
  user_external_id : ZString 1 255
  session_id : Option (ZString 1 255)
  device_id : Option (ZString 1 255)
  captured_at : IsoDateTime
  club : ZString 1 64
  ball_speed_mps : ZNumber 0 120
  club_head_speed_mps : Option (ZNumber 0 100)
  launch_angle_deg : ZNumber (-10) 70
  spin_rpm : Option (ZInt 0 15000)
  carry_distance_m : ZNumber 0 450
  total_distance_m : Option (ZNumber 0 500)
  side_deviation_m : ZNumber (-200) 200

def ZString.toJson {lo hi : ℕ} (s : ZString lo hi) : Json := .str s.value
def ZNumber.toJson {lo hi : ℚ} (x : ZNumber lo hi) : Json := .num x.value
def ZInt.toJson {lo hi : ℤ} (x : ZInt lo hi) : Json := .num x.value

def TrackproPayload.toJson (p : TrackproPayload) : Json :=
  .obj ([("shot_uid", .str p.shot_uid.value), ("user_external_id", p.user_external_id.toJson)] ++
    Json.field? "session_id" ZString.toJson p.session_id ++
    Json.field? "device_id" ZString.toJson p.device_id ++
    [("captured_at", .str p.captured_at.text), ("club", p.club.toJson),
      ("ball_speed_mps", p.ball_speed_mps.toJson)] ++
    Json.field? "club_head_speed_mps" ZNumber.toJson p.club_head_speed_mps ++
    [("launch_angle_deg", p.launch_angle_deg.toJson)] ++
    Json.field? "spin_rpm" ZInt.toJson p.spin_rpm ++
    [("carry_distance_m", p.carry_distance_m.toJson)] ++
    Json.field? "total_distance_m" ZNumber.toJson p.total_distance_m ++
    [("side_deviation_m", p.side_deviation_m.toJson)])

def parserVersion : String := "1.0.0"

def TrackproPayload.idempotencyKey (payload : TrackproPayload) : String :=
  "tp|" ++ payload.shot_uid.value

/-- The shot `parseTrackpro` builds once it has the capture time. -/
def trackproShot (sha256 : String → String) (ulid : String) (payload : TrackproPayload)
    (receivedAtUtc capturedAtUtc : ℤ) : NormalisedShot where
  canonical_shot_id := ulid
  vendor := .trackpro
  vendor_shot_id := some payload.shot_uid.value
  idempotency_key := payload.idempotencyKey
  vendor_user_id := payload.user_external_id.value
  canonical_user_id := none
  captured_at_utc := capturedAtUtc
  captured_at_tz_offset_min := none
  received_at_utc := receivedAtUtc
  club_code := normaliseClub payload.club.value
  club_raw := payload.club.value
  ball_speed_mps := payload.ball_speed_mps.value
  club_head_speed_mps := payload.club_head_speed_mps.map (·.value)
  launch_angle_deg := payload.launch_angle_deg.value
  spin_rpm := payload.spin_rpm.map (·.value)
  carry_m := payload.carry_distance_m.value
  total_m := payload.total_distance_m.map (·.value)
  lateral_m := payload.side_deviation_m.value
  device_id := payload.device_id.map (·.value)
  session_id := payload.session_id.map (·.value)
  content_hash := computeContentHash sha256 {
    vendor_user_id := payload.user_external_id.value
    club_code := normaliseClub payload.club.value
    captured_at_utc := isoString capturedAtUtc
    ball_speed_mps := payload.ball_speed_mps.value
    launch_angle_deg := payload.launch_angle_deg.value
    carry_m := payload.carry_distance_m.value
    lateral_m := payload.side_deviation_m.value }
  schema_version := 1
  parser_version := parserVersion
  duplicate_of := none
  raw_payload := payload.toJson

def parseTrackpro (sha256 : String → String) (ulid : ℕ → String) (payload : TrackproPayload)
    (receivedAtUtc : ℤ) : Except JsError (List NormalisedShot) :=
  match toISOString payload.captured_at.timeValue with
  | .error e => .error e
  | .ok capturedAtUtc => .ok [trackproShot sha256 (ulid 0) payload receivedAtUtc capturedAtUtc]

/-- The dates the schema admits are no obstacle. -/
theorem parseTrackpro_eq (sha256 : String → String) (ulid : ℕ → String)
    (payload : TrackproPayload) (receivedAtUtc : ℤ) :
    parseTrackpro sha256 ulid payload receivedAtUtc =
      .ok [trackproShot sha256 (ulid 0) payload receivedAtUtc payload.captured_at.timeValue] := by
  unfold parseTrackpro
  rw [payload.captured_at.toISOString_timeValue]

theorem parseTrackpro_ok {sha256 : String → String} {ulid : ℕ → String}
    {payload : TrackproPayload} {receivedAtUtc : ℤ} {shots : List NormalisedShot}
    (h : parseTrackpro sha256 ulid payload receivedAtUtc = .ok shots) :
    shots = [trackproShot sha256 (ulid 0) payload receivedAtUtc payload.captured_at.timeValue] := by
  rw [parseTrackpro_eq] at h
  exact (Except.ok.inj h).symm

end PureplayIngest.Webhooks
