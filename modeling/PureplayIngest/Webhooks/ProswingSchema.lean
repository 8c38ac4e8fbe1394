import PureplayIngest.Webhooks.Proswing
import PureplayIngest.Webhooks.ZodObject

/-!
The ProSwing schemas on JSON values, and how `parseProswingRaw` chooses one
of them.

The choice looks at one or two keys. It never costs anything: a payload is
accepted just when one of the three schemas accepts it, and no payload is
accepted by two.
-/

namespace PureplayIngest.Webhooks

open Shared Shared.Domain

/-! ### The schemas -/

def speedUnitSchema : Schema SpeedUnit := zEnum SpeedUnit.toString [.mph, .kph, .mps]

def distanceUnitSchema : Schema DistanceUnit := zEnum DistanceUnit.toString [.yd, .m, .ft]

def ProswingBallSpeedSchema : Schema ProswingBallSpeed :=
  zObject ["value", "unit"] fun fields => do
    let value ← zNumber 0 500 (fields.get "value")
    let unit ← speedUnitSchema (fields.get "unit")
    if h : unit = .mps → value.value ≤ 120 then some ⟨value, unit, h⟩ else none

def ProswingClubSpeedSchema : Schema ProswingClubSpeed :=
  zObject ["value", "unit"] fun fields => do
    let value ← zNumber 0 300 (fields.get "value")
    let unit ← speedUnitSchema (fields.get "unit")
    return ⟨value, unit⟩

def ProswingDistanceSchema : Schema ProswingDistance :=
  zObject ["value", "unit"] fun fields => do
    let value ← zNumber (-500) 700 (fields.get "value")
    let unit ← distanceUnitSchema (fields.get "unit")
    return ⟨value, unit⟩

def launchSchema : Schema (ZNumber (-10) 90) :=
  zObject ["value", "unit"] fun fields => do
    let value ← zNumber (-10) 90 (fields.get "value")
    zLiteral "deg" (fields.get "unit")
    return value

def proswingShotV1Names : List String :=
  ["id", "occurred_at", "club_code", "ball_speed", "club_speed", "launch", "carry", "total",
    "deviation"]

def ProswingShotSchema : Schema ProswingShotV1 :=
  zObject proswingShotV1Names fun fields => do
    let id ← zString 1 255 (fields.get "id")
    let occurred_at ← zDateTime (fields.get "occurred_at")
    let club_code ← zString 1 64 (fields.get "club_code")
    let ball_speed ← ProswingBallSpeedSchema (fields.get "ball_speed")
    let club_speed ← ProswingClubSpeedSchema.optional (fields.get "club_speed")
    let launch ← launchSchema (fields.get "launch")
    let carry ← ProswingDistanceSchema (fields.get "carry")
    let total ← ProswingDistanceSchema.optional (fields.get "total")
    let deviation ← ProswingDistanceSchema (fields.get "deviation")
    return { id, occurred_at, club_code, ball_speed, club_speed, launch, carry, total, deviation }

/-- The envelope of the three formats: a literal type around the data. -/
def recordedSchema {α : Type} (data : Schema α) : Schema α :=
  zObject ["type", "data"] fun fields => do
    zLiteral "shot.recorded" (fields.get "type")
    data (fields.get "data")

def ProswingPayloadSchema : Schema ProswingPayloadV1 :=
  recordedSchema (zObject ["user_token", "shot"] fun fields => do
    let user_token ← zString 8 255 (fields.get "user_token")
    let shot ← ProswingShotSchema (fields.get "shot")
    return { user_token, shot })

def proswingShotV2Names : List String :=
  ["id", "occurred_at", "club_code", "ball_speed_mph", "ball_speed_kph", "ball_speed_mps",
    "club_speed_mph", "club_speed_kph", "club_speed_mps", "launch_deg", "carry_yd", "carry_m",
    "total_yd", "total_m", "deviation_yd", "deviation_m", "deviation_ft"]

def ProswingShotV2Schema : Schema ProswingShotV2 :=
  zObject proswingShotV2Names fun fields => do
    let id ← zString 1 255 (fields.get "id")
    let occurred_at ← zDateTime (fields.get "occurred_at")
    let club_code ← zString 1 64 (fields.get "club_code")
    let ball_speed_mph ← (zNumber 0 268).optional (fields.get "ball_speed_mph")
    let ball_speed_kph ← (zNumber 0 430).optional (fields.get "ball_speed_kph")
    let ball_speed_mps ← (zNumber 0 120).optional (fields.get "ball_speed_mps")
    let club_speed_mph ← (zNumber 0 230).optional (fields.get "club_speed_mph")
    let club_speed_kph ← (zNumber 0 370).optional (fields.get "club_speed_kph")
    let club_speed_mps ← (zNumber 0 103).optional (fields.get "club_speed_mps")
    let launch_deg ← zNumber (-10) 90 (fields.get "launch_deg")
    let carry_yd ← (zNumber 0 600).optional (fields.get "carry_yd")
    let carry_m ← (zNumber 0 550).optional (fields.get "carry_m")
    let total_yd ← (zNumber 0 700).optional (fields.get "total_yd")
    let total_m ← (zNumber 0 640).optional (fields.get "total_m")
    let deviation_yd ← (zNumber (-500) 500).optional (fields.get "deviation_yd")
    let deviation_m ← (zNumber (-500) 500).optional (fields.get "deviation_m")
    let deviation_ft ← (zNumber (-1500) 1500).optional (fields.get "deviation_ft")
    if h : (ball_speed_mph.isNone → ball_speed_kph.isNone → ball_speed_mps.isSome) ∧
        (carry_yd.isNone → carry_m.isSome) ∧
        (deviation_yd.isNone → deviation_m.isNone → deviation_ft.isSome) then
      some { id, occurred_at, club_code, ball_speed_mph, ball_speed_kph, ball_speed_mps,
             club_speed_mph, club_speed_kph, club_speed_mps, launch_deg, carry_yd, carry_m,
             total_yd, total_m, deviation_yd, deviation_m, deviation_ft,
             hasBallSpeed := h.1, hasCarry := h.2.1, hasDeviation := h.2.2 }
    else none

def ProswingPayloadV2Schema : Schema ProswingPayloadV2 :=
  recordedSchema (zObject ["user_token", "shot"] fun fields => do
    let user_token ← zString 8 255 (fields.get "user_token")
    let shot ← ProswingShotV2Schema (fields.get "shot")
    return { user_token, shot })

def proswingShotV3Names : List String :=
  ["id", "occurred_at", "club_code", "ball_speed", "club_speed", "launch_angle", "spin_rpm",
    "carry", "total", "deviation"]

def ProswingShotV3Schema : Schema ProswingShotV3 :=
  zObject proswingShotV3Names fun fields => do
    let id ← zString 1 255 (fields.get "id")
    let occurred_at ← zDateTime (fields.get "occurred_at")
    let club_code ← zString 1 64 (fields.get "club_code")
    let ball_speed ← ProswingBallSpeedSchema (fields.get "ball_speed")
    let club_speed ← ProswingClubSpeedSchema.optional (fields.get "club_speed")
    let launch_angle ← zNumber (-10) 90 (fields.get "launch_angle")
    let spin_rpm ← (zInt 0 15000).optional (fields.get "spin_rpm")
    let carry ← ProswingDistanceSchema (fields.get "carry")
    let total ← ProswingDistanceSchema.optional (fields.get "total")
    let deviation ← ProswingDistanceSchema (fields.get "deviation")
    return { id, occurred_at, club_code, ball_speed, club_speed, launch_angle, spin_rpm, carry,
             total, deviation }

/-- `z.object({ id }).strict()`, of a player or a device. -/
def idSchema : Schema (ZString 1 255) :=
  zObject ["id"] fun fields => zString 1 255 (fields.get "id")

def ProswingPayloadV3Schema : Schema ProswingPayloadV3 :=
  recordedSchema (zObject ["player", "device", "shot"] fun fields => do
    let player_id ← idSchema (fields.get "player")
    let device_id ← idSchema.optional (fields.get "device")
    let shot ← ProswingShotV3Schema (fields.get "shot")
    return { player_id, device_id, shot })

/-! ### The choice -/

inductive ProswingVersion
  | v1 | v2 | v3
  deriving DecidableEq

def ballSpeedMarkers : List String := ["ball_speed_mph", "ball_speed_kph", "ball_speed_mps"]

/-- The version of a shot whose data have no player. -/
def detectShotVersion : Option Json → ProswingVersion
  | some (.obj shot) => if ∃ name ∈ ballSpeedMarkers, hasKey shot name then .v2 else .v1
  | _ => .v1

/-- An array has none of the keys that are looked for. -/
def detectVersion (raw : Json) : ProswingVersion :=
  match raw with
  | .obj fields =>
      match (ownFields fields).get "data" with
      | some (.obj data) =>
          if hasKey data "player" then .v3
          else detectShotVersion ((ownFields data).get "shot")
      | _ => .v1
  | _ => .v1

/-- `none` where the chosen schema throws its `ZodError`. -/
def parseProswingRaw (raw : Json) : Option ProswingCanonicalPayload :=
  match detectVersion raw with
  | .v3 => (ProswingPayloadV3Schema (some raw)).map fromV3
  | .v2 => (ProswingPayloadV2Schema (some raw)).map fromV2
  | .v1 => (ProswingPayloadSchema (some raw)).map fromV1

/-! ### The schemas exclude one another -/

section

variable {raw : Json}

theorem recordedSchema_eq_some {α : Type} {data : Schema α} {json : Option Json} {a : α}
    (h : recordedSchema data json = some a) :
    ∃ fields, json = some (.obj fields) ∧ data ((ownFields fields).get "data") = some a := by
  obtain ⟨fields, rfl, _, hshape⟩ := zObject_eq_some h
  obtain ⟨_, _, hdata⟩ := Option.bind_eq_some_iff.mp hshape
  exact ⟨fields, rfl, hdata⟩

/-- What the choice sees of a payload whose data are an object. -/
theorem detectVersion_of_data {fields data : List (String × Json)}
    (hdata : (ownFields fields).get "data" = some (.obj data)) :
    detectVersion (.obj fields) =
      if hasKey data "player" then .v3 else detectShotVersion ((ownFields data).get "shot") := by
  simp only [detectVersion, hdata]

/-- The data of the first two formats are a user token and a shot, no player. -/
theorem detectVersion_of_token {α β : Type} {schema : Schema α} {f : ZString 8 255 → α → β} {p : β}
    (h : recordedSchema (zObject ["user_token", "shot"] fun data => do
        let user_token ← zString 8 255 (data.get "user_token")
        let shot ← schema (data.get "shot")
        return f user_token shot) (some raw) = some p) :
    ∃ shot a, schema shot = some a ∧ detectVersion raw = detectShotVersion shot := by
  obtain ⟨fields, heq, hfields⟩ := recordedSchema_eq_some h
  obtain rfl := Option.some.inj heq
  obtain ⟨data, hdata, hstrict, hshape⟩ := zObject_eq_some hfields
  obtain ⟨_, _, hshape⟩ := Option.bind_eq_some_iff.mp hshape
  obtain ⟨a, hshot, _⟩ := Option.bind_eq_some_iff.mp hshape
  refine ⟨_, a, hshot, ?_⟩
  rw [detectVersion_of_data hdata, if_neg (not_hasKey_of_strict hstrict (by decide))]

theorem detectVersion_v1 {p : ProswingPayloadV1} (h : ProswingPayloadSchema (some raw) = some p) :
    detectVersion raw = .v1 := by
  obtain ⟨_, a, hshot, hversion⟩ := detectVersion_of_token h
  obtain ⟨shot, rfl, hstrict, _⟩ := zObject_eq_some hshot
  have hmarkers : ∀ name ∈ ballSpeedMarkers, name ∉ proswingShotV1Names := by decide
  rw [hversion, detectShotVersion, if_neg]
  rintro ⟨name, hmarker, hkey⟩
  exact not_hasKey_of_strict hstrict (hmarkers name hmarker) hkey

/-- The `superRefine` asks for a ball speed, so one of the markers is there. -/
theorem ProswingShotV2Schema_marker {json : Option Json} {a : ProswingShotV2}
    (h : ProswingShotV2Schema json = some a) :
    ∃ shot, json = some (.obj shot) ∧ ∃ name ∈ ballSpeedMarkers, hasKey shot name := by
  obtain ⟨shot, rfl, _, hshape⟩ := zObject_eq_some h
  -- id, occurred_at and club_code come before the ball speeds, eleven fields after them.
  iterate 3 obtain ⟨_, _, hshape⟩ := Option.bind_eq_some_iff.mp hshape
  obtain ⟨mph, hmph, hshape⟩ := Option.bind_eq_some_iff.mp hshape
  obtain ⟨kph, hkph, hshape⟩ := Option.bind_eq_some_iff.mp hshape
  obtain ⟨mps, hmps, hshape⟩ := Option.bind_eq_some_iff.mp hshape
  iterate 11 obtain ⟨_, _, hshape⟩ := Option.bind_eq_some_iff.mp hshape
  have hkey {lo hi : ℚ} {name : String} {x : ZNumber lo hi}
      (hx : (zNumber lo hi).optional ((ownFields shot).get name) = some (some x)) :
      hasKey shot name := by
    obtain ⟨json, hget, _⟩ := optional_eq_some hx
    exact hasKey_of_get hget
  refine ⟨shot, rfl, ?_⟩
  cases mph with
  | some x => exact ⟨"ball_speed_mph", by decide, hkey hmph⟩
  | none =>
      cases kph with
      | some x => exact ⟨"ball_speed_kph", by decide, hkey hkph⟩
      | none =>
          cases mps with
          | some x => exact ⟨"ball_speed_mps", by decide, hkey hmps⟩
          | none => exact absurd hshape (by simp)

theorem detectVersion_v2 {p : ProswingPayloadV2} (h : ProswingPayloadV2Schema (some raw) = some p) :
    detectVersion raw = .v2 := by
  obtain ⟨_, a, hshot, hversion⟩ := detectVersion_of_token h
  obtain ⟨shot, rfl, hmarker⟩ := ProswingShotV2Schema_marker hshot
  rw [hversion, detectShotVersion, if_pos hmarker]

theorem detectVersion_v3 {p : ProswingPayloadV3} (h : ProswingPayloadV3Schema (some raw) = some p) :
    detectVersion raw = .v3 := by
  obtain ⟨fields, heq, hfields⟩ := recordedSchema_eq_some h
  obtain rfl := Option.some.inj heq
  obtain ⟨data, hdata, _, hshape⟩ := zObject_eq_some hfields
  obtain ⟨_, hplayer, _⟩ := Option.bind_eq_some_iff.mp hshape
  obtain ⟨player, hget, _⟩ := zObject_eq_some hplayer
  rw [detectVersion_of_data hdata, if_pos (hasKey_of_get hget)]

theorem parseProswingRaw_v1 {p : ProswingPayloadV1}
    (h : ProswingPayloadSchema (some raw) = some p) : parseProswingRaw raw = some (fromV1 p) := by
  simp only [parseProswingRaw, detectVersion_v1 h, h, Option.map_some]

theorem parseProswingRaw_v2 {p : ProswingPayloadV2}
    (h : ProswingPayloadV2Schema (some raw) = some p) :
    parseProswingRaw raw = some (fromV2 p) := by
  simp only [parseProswingRaw, detectVersion_v2 h, h, Option.map_some]

theorem parseProswingRaw_v3 {p : ProswingPayloadV3}
    (h : ProswingPayloadV3Schema (some raw) = some p) :
    parseProswingRaw raw = some (fromV3 p) := by
  simp only [parseProswingRaw, detectVersion_v3 h, h, Option.map_some]

/-- Looking at one or two keys is as good as trying every schema. -/
theorem parseProswingRaw_dispatch (raw : Json) :
    ((parseProswingRaw raw).isSome ↔
      (ProswingPayloadSchema (some raw)).isSome ∨ (ProswingPayloadV2Schema (some raw)).isSome ∨
        (ProswingPayloadV3Schema (some raw)).isSome) ∧
    ¬ ((ProswingPayloadSchema (some raw)).isSome ∧ (ProswingPayloadV2Schema (some raw)).isSome) ∧
    ¬ ((ProswingPayloadSchema (some raw)).isSome ∧ (ProswingPayloadV3Schema (some raw)).isSome) ∧
    ¬ ((ProswingPayloadV2Schema (some raw)).isSome ∧ (ProswingPayloadV3Schema (some raw)).isSome) ∧
    (∀ p, ProswingPayloadSchema (some raw) = some p → parseProswingRaw raw = some (fromV1 p)) ∧
    (∀ p, ProswingPayloadV2Schema (some raw) = some p → parseProswingRaw raw = some (fromV2 p)) ∧
    (∀ p, ProswingPayloadV3Schema (some raw) = some p →
      parseProswingRaw raw = some (fromV3 p)) := by
  simp only [Option.isSome_iff_exists]
  refine ⟨⟨?_, ?_⟩, ?_, ?_, ?_, fun _ => parseProswingRaw_v1, fun _ => parseProswingRaw_v2,
    fun _ => parseProswingRaw_v3⟩
  · rintro ⟨canonical, h⟩
    rw [parseProswingRaw] at h
    split at h
    · obtain ⟨p, hp, _⟩ := Option.map_eq_some_iff.mp h
      exact .inr (.inr ⟨p, hp⟩)
    · obtain ⟨p, hp, _⟩ := Option.map_eq_some_iff.mp h
      exact .inr (.inl ⟨p, hp⟩)
    · obtain ⟨p, hp, _⟩ := Option.map_eq_some_iff.mp h
      exact .inl ⟨p, hp⟩
  · rintro (⟨p, hp⟩ | ⟨p, hp⟩ | ⟨p, hp⟩)
    · exact ⟨_, parseProswingRaw_v1 hp⟩
    · exact ⟨_, parseProswingRaw_v2 hp⟩
    · exact ⟨_, parseProswingRaw_v3 hp⟩
  · rintro ⟨⟨p, hp⟩, q, hq⟩
    exact absurd ((detectVersion_v1 hp).symm.trans (detectVersion_v2 hq)) (by simp)
  · rintro ⟨⟨p, hp⟩, q, hq⟩
    exact absurd ((detectVersion_v1 hp).symm.trans (detectVersion_v3 hq)) (by simp)
  · rintro ⟨⟨p, hp⟩, q, hq⟩
    exact absurd ((detectVersion_v2 hp).symm.trans (detectVersion_v3 hq)) (by simp)

end

/-! ### One shot in two formats -/

/-- The variants a V2 shot gives, as pairs of value and unit. -/
def ProswingShotV2.ballSpeeds (s : ProswingShotV2) : List Speed :=
  [s.ball_speed_mph.map fun x => ⟨x.value, .mph⟩, s.ball_speed_kph.map fun x => ⟨x.value, .kph⟩,
    s.ball_speed_mps.map fun x => ⟨x.value, .mps⟩].reduceOption

def ProswingShotV2.clubSpeeds (s : ProswingShotV2) : List Speed :=
  [s.club_speed_mph.map fun x => ⟨x.value, .mph⟩, s.club_speed_kph.map fun x => ⟨x.value, .kph⟩,
    s.club_speed_mps.map fun x => ⟨x.value, .mps⟩].reduceOption

def ProswingShotV2.carries (s : ProswingShotV2) : List Distance :=
  [s.carry_yd.map fun x => ⟨x.value, .yd⟩, s.carry_m.map fun x => ⟨x.value, .m⟩].reduceOption

def ProswingShotV2.totals (s : ProswingShotV2) : List Distance :=
  [s.total_yd.map fun x => ⟨x.value, .yd⟩, s.total_m.map fun x => ⟨x.value, .m⟩].reduceOption

def ProswingShotV2.deviations (s : ProswingShotV2) : List Distance :=
  [s.deviation_yd.map fun x => ⟨x.value, .yd⟩, s.deviation_m.map fun x => ⟨x.value, .m⟩,
    s.deviation_ft.map fun x => ⟨x.value, .ft⟩].reduceOption

/-! The converter takes the first variant that is given. -/

theorem ballSpeeds_head (s : ProswingShotV2) : s.ballSpeeds.head? = some s.ballSpeed := by
  rw [ProswingShotV2.ballSpeed, ProswingShotV2.ballSpeeds]
  split
  · rename_i hmph
    simp only [hmph, Option.map_some]
    rfl
  · rename_i hmph
    split
    · rename_i hkph
      simp only [hmph, hkph, Option.map_some, Option.map_none]
      rfl
    · rename_i hkph
      obtain ⟨x, hx⟩ :=
        Option.isSome_iff_exists.mp (s.hasBallSpeed (by simp [hmph]) (by simp [hkph]))
      simp only [hmph, hkph, hx, Option.map_some, Option.map_none]
      rfl

theorem clubSpeeds_head (s : ProswingShotV2) : s.clubSpeeds.head? = s.clubSpeed := by
  rw [ProswingShotV2.clubSpeed, ProswingShotV2.clubSpeeds]
  cases s.club_speed_mph with
  | some x => rfl
  | none =>
      cases s.club_speed_kph with
      | some x => rfl
      | none => cases s.club_speed_mps <;> rfl

theorem carries_head (s : ProswingShotV2) : s.carries.head? = some s.carry := by
  rw [ProswingShotV2.carry, ProswingShotV2.carries]
  split
  · rename_i hyd
    simp only [hyd, Option.map_some]
    rfl
  · rename_i hyd
    obtain ⟨x, hx⟩ := Option.isSome_iff_exists.mp (s.hasCarry (by simp [hyd]))
    simp only [hyd, hx, Option.map_some, Option.map_none]
    rfl

theorem totals_head (s : ProswingShotV2) : s.totals.head? = s.total := by
  rw [ProswingShotV2.total, ProswingShotV2.totals]
  cases s.total_yd with
  | some x => rfl
  | none => cases s.total_m <;> rfl

theorem deviations_head (s : ProswingShotV2) : s.deviations.head? = some s.deviation := by
  rw [ProswingShotV2.deviation, ProswingShotV2.deviations]
  split
  · rename_i hyd
    simp only [hyd, Option.map_some]
    rfl
  · rename_i hyd
    split
    · rename_i hm
      simp only [hyd, hm, Option.map_some, Option.map_none]
      rfl
    · rename_i hm
      obtain ⟨x, hx⟩ := Option.isSome_iff_exists.mp (s.hasDeviation (by simp [hyd]) (by simp [hm]))
      simp only [hyd, hm, hx, Option.map_some, Option.map_none]
      rfl

/-- The V1 payload says what the V2 payload says, each measurement of which is
given in at most one unit. -/
structure ProswingPayloadV2.SameAsV1 (p : ProswingPayloadV2) (q : ProswingPayloadV1) : Prop where
  user_token : p.user_token.value = q.user_token.value
  id : p.shot.id.value = q.shot.id.value
  occurred_at : p.shot.occurred_at.text = q.shot.occurred_at.text
  club_code : p.shot.club_code.value = q.shot.club_code.value
  ball_speed : p.shot.ballSpeeds = [q.shot.ball_speed.speed]
  club_speed : p.shot.clubSpeeds = (q.shot.club_speed.map (·.speed)).toList
  launch : p.shot.launch_deg.value = q.shot.launch.value
  carry : p.shot.carries = [q.shot.carry.distance]
  total : p.shot.totals = (q.shot.total.map (·.distance)).toList
  deviation : p.shot.deviations = [q.shot.deviation.distance]

/-- The V1 payload says what the V3 payload says, which has no spin. -/
structure ProswingPayloadV3.SameAsV1 (p : ProswingPayloadV3) (q : ProswingPayloadV1) : Prop where
  user_token : p.player_id.value = q.user_token.value
  id : p.shot.id.value = q.shot.id.value
  occurred_at : p.shot.occurred_at.text = q.shot.occurred_at.text
  club_code : p.shot.club_code.value = q.shot.club_code.value
  ball_speed : p.shot.ball_speed.speed = q.shot.ball_speed.speed
  club_speed : p.shot.club_speed.map (·.speed) = q.shot.club_speed.map (·.speed)
  launch : p.shot.launch_angle.value = q.shot.launch.value
  spin_rpm : p.shot.spin_rpm = none
  carry : p.shot.carry.distance = q.shot.carry.distance
  total : p.shot.total.map (·.distance) = q.shot.total.map (·.distance)
  deviation : p.shot.deviation.distance = q.shot.deviation.distance

/-- A shot without what it was parsed from and the id it was given. -/
def anonymous (shot : NormalisedShot) : NormalisedShot :=
  { shot with canonical_shot_id := "", raw_payload := .null }

/-- Both values are accepted, and the parser makes the same shots of them. -/
def SameShots (sha256 : String → String) (ulid ulid' : ℕ → String) (receivedAtUtc : ℤ)
    (raw raw' : Json) : Prop :=
  ∃ p p', parseProswingRaw raw = some p ∧ parseProswingRaw raw' = some p' ∧
    (parseProswing sha256 ulid p receivedAtUtc).map (·.map anonymous) =
      (parseProswing sha256 ulid' p' receivedAtUtc).map (·.map anonymous)

/-- The text of a timestamp determines what it says. -/
theorem isoDateTime_ext {d e : IsoDateTime} (h : d.text = e.text) : d = e := by
  obtain ⟨text, parts, hscan, _⟩ := d
  obtain ⟨text', parts', hscan', _⟩ := e
  obtain rfl : text = text' := h
  obtain rfl := Option.some.inj (hscan.symm.trans hscan')
  rfl

theorem ProswingPayloadV2.SameAsV1.canonical {p : ProswingPayloadV2} {q : ProswingPayloadV1}
    (h : p.SameAsV1 q) : fromV2 p = fromV1 q := by
  have hball : p.shot.ballSpeed = q.shot.ball_speed.speed :=
    Option.some.inj ((ballSpeeds_head p.shot).symm.trans (congrArg List.head? h.ball_speed))
  have hclub : p.shot.clubSpeed = q.shot.club_speed.map (·.speed) := by
    rw [← clubSpeeds_head, h.club_speed, Option.head?_toList]
  have hcarry : p.shot.carry = q.shot.carry.distance :=
    Option.some.inj ((carries_head p.shot).symm.trans (congrArg List.head? h.carry))
  have htotal : p.shot.total = q.shot.total.map (·.distance) := by
    rw [← totals_head, h.total, Option.head?_toList]
  have hdeviation : p.shot.deviation = q.shot.deviation.distance :=
    Option.some.inj ((deviations_head p.shot).symm.trans (congrArg List.head? h.deviation))
  simp only [fromV2, fromV1, h.user_token, h.id, isoDateTime_ext h.occurred_at, h.club_code, hball,
    hclub, h.launch, hcarry, htotal, hdeviation]

theorem ProswingPayloadV3.SameAsV1.canonical {p : ProswingPayloadV3} {q : ProswingPayloadV1}
    (h : p.SameAsV1 q) : fromV3 p = fromV1 q := by
  simp only [fromV3, fromV1, h.user_token, h.id, isoDateTime_ext h.occurred_at, h.club_code,
    h.ball_speed, h.club_speed, h.launch, h.spin_rpm, h.carry, h.total, h.deviation,
    Option.map_none]

/-- The id and the raw payload apart, a shot is a function of the canonical payload. -/
theorem parseProswing_anonymous (sha256 : String → String) (ulid ulid' : ℕ → String)
    (p : ProswingCanonicalPayload) (receivedAtUtc : ℤ) :
    (parseProswing sha256 ulid p receivedAtUtc).map (·.map anonymous) =
      (parseProswing sha256 ulid' p receivedAtUtc).map (·.map anonymous) := by
  rw [parseProswing_eq, parseProswing_eq]
  cases toISOString p.shot.occurred_at.timeValue <;> rfl

theorem proswing_formats_agree (sha256 : String → String) (ulid ulid' : ℕ → String)
    (receivedAtUtc : ℤ) :
    (∀ raw raw' p q, ProswingPayloadV2Schema (some raw) = some p →
      ProswingPayloadSchema (some raw') = some q → p.SameAsV1 q →
      SameShots sha256 ulid ulid' receivedAtUtc raw raw') ∧
    (∀ raw raw' p q, ProswingPayloadV3Schema (some raw) = some p →
      ProswingPayloadSchema (some raw') = some q → p.SameAsV1 q →
      SameShots sha256 ulid ulid' receivedAtUtc raw raw') := by
  constructor
  · intro raw raw' p q hp hq hsame
    refine ⟨_, _, parseProswingRaw_v2 hp, parseProswingRaw_v1 hq, ?_⟩
    rw [hsame.canonical]
    exact parseProswing_anonymous ..
  · intro raw raw' p q hp hq hsame
    refine ⟨_, _, parseProswingRaw_v3 hp, parseProswingRaw_v1 hq, ?_⟩
    rw [hsame.canonical]
    exact parseProswing_anonymous ..

/-! ### One drive in the three formats -/

def speedJson (value : ℚ) (unit : String) : Json :=
  .obj [("value", .num value), ("unit", .str unit)]

def recordedJson (data : List (String × Json)) : Json :=
  .obj [("type", .str "shot.recorded"), ("data", .obj data)]

def driveFields : List (String × Json) :=
  [("id", .str "shot-9"), ("occurred_at", .str "2024-03-15T20:30:00+10:00"),
    ("club_code", .str "3W")]

def driveV1 : Json :=
  recordedJson [("user_token", .str "demo-token-1"), ("shot", .obj (driveFields ++
    [("ball_speed", speedJson 160 "mph"), ("launch", speedJson 14 "deg"),
      ("carry", speedJson 270 "yd"), ("deviation", speedJson (-3) "m")]))]

def driveV2 : Json :=
  recordedJson [("user_token", .str "demo-token-1"), ("shot", .obj (driveFields ++
    [("ball_speed_mph", .num 160), ("launch_deg", .num 14), ("carry_yd", .num 270),
      ("deviation_m", .num (-3))]))]

def driveV3 : Json :=
  recordedJson [("player", .obj [("id", .str "demo-token-1")]), ("shot", .obj (driveFields ++
    [("ball_speed", speedJson 160 "mph"), ("launch_angle", .num 14),
      ("carry", speedJson 270 "yd"), ("deviation", speedJson (-3) "m")]))]

def driveTime : IsoDateTime :=
  ⟨"2024-03-15T20:30:00+10:00", ⟨2024, 3, 15, 20, 30, 0, 0, some 600⟩, by decide, by decide⟩

def drivePayloadV1 : ProswingPayloadV1 where
  user_token := ⟨"demo-token-1", by decide, by decide⟩
  shot := {
    id := ⟨"shot-9", by decide, by decide⟩
    occurred_at := driveTime
    club_code := ⟨"3W", by decide, by decide⟩
    ball_speed := ⟨⟨160, by norm_num, by norm_num⟩, .mph, by simp⟩
    club_speed := none
    launch := ⟨14, by norm_num, by norm_num⟩
    carry := ⟨⟨270, by norm_num, by norm_num⟩, .yd⟩
    total := none
    deviation := ⟨⟨-3, by norm_num, by norm_num⟩, .m⟩ }

def drivePayloadV2 : ProswingPayloadV2 where
  user_token := drivePayloadV1.user_token
  shot := {
    id := drivePayloadV1.shot.id
    occurred_at := driveTime
    club_code := drivePayloadV1.shot.club_code
    ball_speed_mph := some ⟨160, by norm_num, by norm_num⟩
    ball_speed_kph := none
    ball_speed_mps := none
    club_speed_mph := none
    club_speed_kph := none
    club_speed_mps := none
    launch_deg := drivePayloadV1.shot.launch
    carry_yd := some ⟨270, by norm_num, by norm_num⟩
    carry_m := none
    total_yd := none
    total_m := none
    deviation_yd := none
    deviation_m := some ⟨-3, by norm_num, by norm_num⟩
    deviation_ft := none
    hasBallSpeed := by simp
    hasCarry := by simp
    hasDeviation := by simp }

def drivePayloadV3 : ProswingPayloadV3 where
  player_id := ⟨"demo-token-1", by decide, by decide⟩
  device_id := none
  shot := {
    id := drivePayloadV1.shot.id
    occurred_at := driveTime
    club_code := drivePayloadV1.shot.club_code
    ball_speed := drivePayloadV1.shot.ball_speed
    club_speed := none
    launch_angle := drivePayloadV1.shot.launch
    spin_rpm := none
    carry := drivePayloadV1.shot.carry
    total := none
    deviation := drivePayloadV1.shot.deviation }

theorem proswing_formats_agree_drive :
    SameShots (fun _ => "9915d9c052746cb1613a058f47e0198374584137aad67fe17066ff5f64fd72c8")
      (fun _ => "01HS0N8R9M0000000000000004") (fun _ => "01HS0N8R9M0000000000000005")
      1710498606000 driveV2 driveV1 ∧
    SameShots (fun _ => "9915d9c052746cb1613a058f47e0198374584137aad67fe17066ff5f64fd72c8")
      (fun _ => "01HS0N8R9M0000000000000004") (fun _ => "01HS0N8R9M0000000000000005")
      1710498606000 driveV3 driveV1 := by
  obtain ⟨hv2, hv3⟩ := proswing_formats_agree
    (fun _ => "9915d9c052746cb1613a058f47e0198374584137aad67fe17066ff5f64fd72c8")
    (fun _ => "01HS0N8R9M0000000000000004") (fun _ => "01HS0N8R9M0000000000000005") 1710498606000
  have hv1 : ProswingPayloadSchema (some driveV1) = some drivePayloadV1 := by rfl
  refine ⟨hv2 _ _ drivePayloadV2 _ (by rfl) hv1 ?_, hv3 _ _ drivePayloadV3 _ (by rfl) hv1 ?_⟩
  · exact ⟨rfl, rfl, rfl, rfl, rfl, rfl, rfl, rfl, rfl, rfl⟩
  · exact ⟨rfl, rfl, rfl, rfl, rfl, rfl, rfl, rfl, rfl, rfl, rfl⟩

end PureplayIngest.Webhooks
