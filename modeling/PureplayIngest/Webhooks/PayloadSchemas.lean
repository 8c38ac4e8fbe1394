import PureplayIngest.Webhooks.DateRange

/-!
The schemas of TrackPro and SwingMetric bodies, and what is kept of a body.

A stored shot has the body it came from in `raw_payload`: the whole of it, or
its envelope and the one shot, or the canonical form of the three ProSwing
formats. The schemas read back what they have accepted, so this is enough to
tell everything else about the shot, but for the id and the time of its receipt.
-/

namespace PureplayIngest.Webhooks

open Shared Shared.Domain

/-! ### The schemas -/

def zShotUid : Schema ShotUid
  | some (.str s) => if h : matchesAll shotUidPattern s.toList = true then some ⟨s, h⟩ else none
  | _ => none

def zEmail : Schema Email
  | some (.str s) =>
      if h : utf16Length s ≤ 254 ∧ isEmail s = true then some ⟨⟨s, Nat.zero_le _, h.1⟩, h.2⟩
      else none
  | _ => none

def trackproNames : List String :=
  ["shot_uid", "user_external_id", "session_id", "device_id", "captured_at", "club",
    "ball_speed_mps", "club_head_speed_mps", "launch_angle_deg", "spin_rpm", "carry_distance_m",
    "total_distance_m", "side_deviation_m"]

def trackproShape (fields : JsFields) : Option TrackproPayload := do
  let shot_uid ← zShotUid (fields.get "shot_uid")
  let user_external_id ← zString 1 255 (fields.get "user_external_id")
  let session_id ← (zString 1 255).optional (fields.get "session_id")
  let device_id ← (zString 1 255).optional (fields.get "device_id")
  let captured_at ← zDateTime (fields.get "captured_at")
  let club ← zString 1 64 (fields.get "club")
  let ball_speed_mps ← zNumber 0 120 (fields.get "ball_speed_mps")
  let club_head_speed_mps ← (zNumber 0 100).optional (fields.get "club_head_speed_mps")
  let launch_angle_deg ← zNumber (-10) 70 (fields.get "launch_angle_deg")
  let spin_rpm ← (zInt 0 15000).optional (fields.get "spin_rpm")
  let carry_distance_m ← zNumber 0 450 (fields.get "carry_distance_m")
  let total_distance_m ← (zNumber 0 500).optional (fields.get "total_distance_m")
  let side_deviation_m ← zNumber (-200) 200 (fields.get "side_deviation_m")
  return { shot_uid, user_external_id, session_id, device_id, captured_at, club, ball_speed_mps,
           club_head_speed_mps, launch_angle_deg, spin_rpm, carry_distance_m, total_distance_m,
           side_deviation_m }

def TrackproPayloadSchema : Schema TrackproPayload := zObject trackproNames trackproShape

def swingmetricPlayerSchema : Schema SwingmetricPlayer :=
  zObject ["id", "email"] fun fields => do
    let id ← zString 1 255 (fields.get "id")
    let email ← zEmail.optional (fields.get "email")
    return { id, email }

/-- The shots of a batch: at least one, and 500 at most. -/
abbrev BatchShots := { shots : List SwingmetricShot // 1 ≤ shots.length ∧ shots.length ≤ 500 }

/-- `z.array(SwingmetricShotSchema).min(1).max(500)`. -/
def swingmetricShotsSchema : Schema BatchShots
  | some (.arr items) =>
      (items.mapM SwingmetricShotSchema).bind fun shots =>
        if h : 1 ≤ shots.length ∧ shots.length ≤ 500 then some ⟨shots, h⟩ else none
  | _ => none

def swingmetricShape (fields : JsFields) : Option SwingmetricPayload := do
  let session_id ← zString 1 255 (fields.get "session_id")
  let player ← swingmetricPlayerSchema (fields.get "player")
  let device ← zString 1 255 (fields.get "device")
  let shots ← swingmetricShotsSchema (fields.get "shots")
  return { session_id, player, device, shots := shots.val, shots_min := shots.property.1
           shots_max := shots.property.2 }

def SwingmetricPayloadSchema : Schema SwingmetricPayload :=
  zObject ["session_id", "player", "device", "shots"] swingmetricShape

/-- A batch as it is sent in the canonical field names. -/
def SwingmetricPayload.toJson (p : SwingmetricPayload) : Json :=
  .obj [("session_id", p.session_id.toJson), ("player", p.player.toJson),
    ("device", p.device.toJson), ("shots", .arr (p.shots.map SwingmetricShot.toJson))]

/-! ### Reading back what a schema has accepted -/

section

variable {α : Type} {name key : String} {json : Json} {fields : List (String × Json)}

@[simp] theorem get_nil : (ownFields []).get name = none := rfl

@[simp] theorem get_cons :
    (ownFields ((key, json) :: fields)).get name =
      if key = name then some json else (ownFields fields).get name := by
  rw [get_ownFields, get_ownFields, List.find?_cons]
  by_cases h : key = name
  · rw [decide_eq_true h, if_pos h]
    rfl
  · rw [decide_eq_false h, if_neg h]

@[simp] theorem get_field?_append {toJson : α → Json} {value : Option α} :
    (ownFields (Json.field? key toJson value ++ fields)).get name =
      if key = name then (value.map toJson).or ((ownFields fields).get name)
      else (ownFields fields).get name := by
  cases value with
  | none => simp [Json.field?]
  | some a => simp [Json.field?]

@[simp] theorem zString_toJson {lo hi : ℕ} (s : ZString lo hi) :
    zString lo hi (some s.toJson) = some s :=
  dif_pos ⟨s.min, s.max⟩

@[simp] theorem zNumber_toJson {lo hi : ℚ} (x : ZNumber lo hi) :
    zNumber lo hi (some x.toJson) = some x :=
  dif_pos ⟨x.min, x.max⟩

theorem zInt_toJson {lo hi : ℤ} (hlo : -maxSafeInteger ≤ lo) (hhi : hi ≤ maxSafeInteger)
    (n : ZInt lo hi) : zInt lo hi (some n.toJson) = some n := by
  have hmin := n.min
  have hmax := n.max
  have hsafe : -maxSafeInteger ≤ n.value ∧ n.value ≤ maxSafeInteger := ⟨by omega, by omega⟩
  rw [ZInt.toJson, zInt, if_pos ⟨Rat.den_intCast _, hsafe⟩]
  exact dif_pos ⟨hmin, hmax⟩

@[simp] theorem zDateTime_text (d : IsoDateTime) : zDateTime (some (.str d.text)) = some d := by
  obtain ⟨text, parts, hscan, hrange⟩ := d
  rw [zDateTime, IsoDateTime.ofString?]
  split
  · rename_i hnone
    exact absurd (hscan.symm.trans hnone) (by simp)
  · rename_i parts' hparts
    obtain rfl := Option.some.inj (hscan.symm.trans hparts)
    exact dif_pos hrange

@[simp] theorem zShotUid_value (uid : ShotUid) : zShotUid (some (.str uid.value)) = some uid :=
  dif_pos uid.wellFormed

theorem zEmail_value (email : Email) : zEmail (some email.toZString.toJson) = some email :=
  dif_pos ⟨email.max, email.isEmail⟩

theorem optional_map {schema : Schema α} {toJson : α → Json}
    (h : ∀ a, schema (some (toJson a)) = some a) (value : Option α) :
    schema.optional (value.map toJson) = some value := by
  cases value with
  | none => rfl
  | some a => rw [Option.map_some, Schema.optional, h, Option.map_some]

theorem strict_cons {names : List String} :
    (ownFields ((key, json) :: fields)).strict names ↔
      key ∈ names ∧ (ownFields fields).strict names :=
  List.forall_mem_cons

theorem strict_field?_append {names : List String} {toJson : α → Json} {value : Option α}
    (hkey : key ∈ names) :
    (ownFields (Json.field? key toJson value ++ fields)).strict names ↔
      (ownFields fields).strict names := by
  cases value with
  | none => rfl
  | some a => exact strict_cons.trans (and_iff_right hkey)

theorem strict_nil {names : List String} : (ownFields []).strict names := by
  intro field hfield
  exact absurd hfield List.not_mem_nil

end

/-! ### TrackPro -/

theorem trackproSchema_toJson (p : TrackproPayload) :
    TrackproPayloadSchema (some p.toJson) = some p := by
  have hspin : (zInt 0 15000).optional (p.spin_rpm.map ZInt.toJson) = some p.spin_rpm :=
    optional_map (zInt_toJson (by decide) (by decide)) _
  have hstring (value : Option (ZString 1 255)) :
      (zString 1 255).optional (value.map ZString.toJson) = some value :=
    optional_map zString_toJson value
  have hnumber {lo hi : ℚ} (value : Option (ZNumber lo hi)) :
      (zNumber lo hi).optional (value.map ZNumber.toJson) = some value :=
    optional_map zNumber_toJson value
  rw [TrackproPayloadSchema, TrackproPayload.toJson, zObject, zStrict_eq_some]
  simp only [List.append_assoc, List.cons_append, List.nil_append]
  constructor
  · simp [strict_cons, strict_field?_append, strict_nil, trackproNames]
  · simp [trackproShape, hspin, hstring, hnumber]

/-! ### SwingMetric -/

theorem nullish_toJson {lo hi : ℕ} (s : ZString lo hi) (other : Option Json) :
    nullish (some s.toJson) other = some s.toJson := rfl

theorem nullish_number {lo hi : ℚ} (x : ZNumber lo hi) (other : Option Json) :
    nullish (some x.toJson) other = some x.toJson := rfl

theorem nullish_map {lo hi : ℚ} (value : Option (ZNumber lo hi)) :
    nullish (value.map ZNumber.toJson) none = value.map ZNumber.toJson := by
  cases value with
  | none => rfl
  | some x => rfl

/-- A shot that is sent in the canonical names is not changed by the aliases. -/
theorem swingmetricShotSchema_toJson (shot : SwingmetricShot) :
    SwingmetricShotSchema shot.toJson = some shot := by
  have hts : zInt 0 maxSafeInteger (some shot.ts_ms.toJson) = some shot.ts_ms :=
    zInt_toJson (by decide) le_rfl _
  have hspin : (zInt 0 15000).optional (shot.spin_rpm.map ZInt.toJson) = some shot.spin_rpm :=
    optional_map (zInt_toJson (by decide) (by decide)) _
  have hnumber {lo hi : ℚ} (value : Option (ZNumber lo hi)) :
      (zNumber lo hi).optional (value.map ZNumber.toJson) = some value :=
    optional_map zNumber_toJson value
  rw [SwingmetricShot.toJson, SwingmetricShotSchema, zStrict_eq_some, strict_normaliseShot]
  simp only [List.append_assoc, List.cons_append, List.nil_append]
  generalize hfields : (("ts_ms", shot.ts_ms.toJson) :: _ : List (String × Json)) = fields
  constructor
  · have hstrict : (ownFields fields).strict swingmetricShotNames := by
      rw [← hfields]
      simp [strict_cons, strict_field?_append, strict_nil, swingmetricShotNames]
    intro field hfield
    refine List.mem_append_right _ (hstrict (field.1, some field.2) ?_)
    exact List.mem_map.mpr ⟨field, hfield, rfl⟩
  · have hother (name : String) (hcanonical : name ∉ canonicalNames) (halias : name ∉ aliasNames) :
        (normaliseShot fields).get name = (ownFields fields).get name :=
      get_normaliseShot_other hcanonical halias
    have hcanonical (pair : String × String) (hpair : pair ∈ aliases) :
        (normaliseShot fields).get pair.2 =
          nullish ((ownFields fields).get pair.2) ((ownFields fields).get pair.1) :=
      get_normaliseShot hpair
    rw [swingmetricShotShape_eq_some, hother "ts_ms" (by decide) (by decide),
      hcanonical ("club_used", "club") (by decide),
      hother "ball_speed_mph" (by decide) (by decide),
      hother "swing_speed_mph" (by decide) (by decide),
      hcanonical ("launch_angle", "launch_deg") (by decide),
      hother "spin_rpm" (by decide) (by decide),
      hcanonical ("carry_yds", "carry_yd") (by decide),
      hcanonical ("total_yds", "total_yd") (by decide),
      hcanonical ("offline_yds", "offline_yd") (by decide), ← hfields]
    simp [hts, hspin, hnumber, nullish_toJson, nullish_number, nullish_map]

theorem swingmetricShotsSchema_toJson (p : SwingmetricPayload) :
    swingmetricShotsSchema (some (.arr (p.shots.map SwingmetricShot.toJson))) =
      some ⟨p.shots, p.shots_min, p.shots_max⟩ := by
  have hmapM (shots : List SwingmetricShot) :
      (shots.map SwingmetricShot.toJson).mapM SwingmetricShotSchema = some shots := by
    induction shots with
    | nil => rfl
    | cons shot shots ih =>
        rw [List.map_cons, List.mapM_cons, swingmetricShotSchema_toJson, ih]
        rfl
  rw [swingmetricShotsSchema, hmapM]
  exact dif_pos ⟨p.shots_min, p.shots_max⟩

theorem swingmetricPlayerSchema_toJson (player : SwingmetricPlayer) :
    swingmetricPlayerSchema (some player.toJson) = some player := by
  obtain ⟨id, email⟩ := player
  rw [SwingmetricPlayer.toJson, swingmetricPlayerSchema, zObject, zStrict_eq_some]
  cases email with
  | none => simp [Json.field?, strict_cons, strict_nil, Schema.optional]
  | some email => simp [Json.field?, strict_cons, strict_nil, Schema.optional, zEmail_value]

theorem swingmetricSchema_toJson (p : SwingmetricPayload) :
    SwingmetricPayloadSchema (some p.toJson) = some p := by
  rw [SwingmetricPayloadSchema, SwingmetricPayload.toJson, zObject, zStrict_eq_some]
  constructor
  · simp [strict_cons, strict_nil]
  · simp only [swingmetricShape, get_cons, String.reduceEq, if_true, if_false, zString_toJson,
      swingmetricPlayerSchema_toJson, swingmetricShotsSchema_toJson]
    rfl

/-! ### ProSwing -/

theorem SpeedUnit.toString_injective : Function.Injective SpeedUnit.toString := by
  intro u v h
  revert h
  cases u <;> cases v <;> decide

theorem DistanceUnit.toString_injective : Function.Injective DistanceUnit.toString := by
  intro u v h
  revert h
  cases u <;> cases v <;> decide

theorem Speed.toJson_injective : Function.Injective Speed.toJson := by
  rintro ⟨value, unit⟩ ⟨value', unit'⟩ h
  simp only [Speed.toJson, JsonOf.obj.injEq, List.cons.injEq, Prod.mk.injEq, JsonOf.num.injEq,
    JsonOf.str.injEq, true_and, and_true] at h
  rw [h.1, SpeedUnit.toString_injective h.2]

theorem Distance.toJson_injective : Function.Injective Distance.toJson := by
  rintro ⟨value, unit⟩ ⟨value', unit'⟩ h
  simp only [Distance.toJson, JsonOf.obj.injEq, List.cons.injEq, Prod.mk.injEq, JsonOf.num.injEq,
    JsonOf.str.injEq, true_and, and_true] at h
  rw [h.1, DistanceUnit.toString_injective h.2]

theorem ProswingCanonicalShot.toJson_injective :
    Function.Injective ProswingCanonicalShot.toJson := by
  intro s t h
  have hget (name : String) :=
    congrArg (fun fields => (ownFields fields).get name) (JsonOf.obj.inj h)
  simp only [List.append_assoc, List.cons_append, List.nil_append, get_cons,
    get_field?_append] at hget
  have hid : s.id = t.id := by simpa using hget "id"
  have htime : s.occurred_at = t.occurred_at :=
    isoDateTime_ext (by simpa using hget "occurred_at")
  have hclub : s.club_code = t.club_code := by simpa using hget "club_code"
  have hball : s.ball_speed = t.ball_speed :=
    Speed.toJson_injective (by simpa using hget "ball_speed")
  have hspeed : s.club_speed = t.club_speed :=
    Option.map_injective Speed.toJson_injective (by simpa using hget "club_speed")
  have hlaunch : s.launch = t.launch := by simpa using hget "launch"
  have hnumber : Function.Injective fun n : ℤ => (.num n : Json) := fun m n h => by simpa using h
  have hspin : s.spin_rpm = t.spin_rpm :=
    Option.map_injective hnumber (by simpa using hget "spin_rpm")
  have hcarry : s.carry = t.carry := Distance.toJson_injective (by simpa using hget "carry")
  have htotal : s.total = t.total :=
    Option.map_injective Distance.toJson_injective (by simpa using hget "total")
  have hdeviation : s.deviation = t.deviation :=
    Distance.toJson_injective (by simpa using hget "deviation")
  cases s
  cases t
  simp only [ProswingCanonicalShot.mk.injEq]
  exact ⟨hid, htime, hclub, hball, hspeed, hlaunch, hspin, hcarry, htotal, hdeviation⟩

theorem ProswingCanonicalPayload.toJson_injective :
    Function.Injective ProswingCanonicalPayload.toJson := by
  rintro ⟨token, shot⟩ ⟨token', shot'⟩ h
  simp only [ProswingCanonicalPayload.toJson, JsonOf.obj.injEq, List.cons.injEq, Prod.mk.injEq,
    JsonOf.str.injEq, true_and, and_true] at h
  rw [h.1, ProswingCanonicalShot.toJson_injective h.2]

/-! ### What is kept of a body -/

/-- The shots are the same but for the id and for when they were received. -/
def SameButReceipt (shot other : NormalisedShot) : Prop :=
  shot = { other with
    canonical_shot_id := shot.canonical_shot_id, received_at_utc := shot.received_at_utc }

/-- What a schema reads back is determined by its JSON. -/
theorem toJson_injective {α : Type} {schema : Schema α} {toJson : α → Json}
    (hread : ∀ a, schema (some (toJson a)) = some a) : Function.Injective toJson := by
  intro a b h
  have ha := hread a
  rw [h, hread b] at ha
  exact (Option.some.inj ha).symm

theorem SwingmetricShot.toJson_injective : Function.Injective SwingmetricShot.toJson := by
  intro s t h
  have hs := swingmetricShotSchema_toJson s
  rw [h, swingmetricShotSchema_toJson t] at hs
  exact (Option.some.inj hs).symm

theorem ZString.toJson_injective {lo hi : ℕ} :
    Function.Injective (ZString.toJson : ZString lo hi → Json) :=
  Webhooks.toJson_injective zString_toJson

theorem envelope_inj {p q : SwingmetricPayload} (h : p.envelope = q.envelope) :
    p.session_id = q.session_id ∧ p.player = q.player ∧ p.device = q.device := by
  simp only [SwingmetricPayload.envelope, JsonOf.obj.injEq, List.cons.injEq, Prod.mk.injEq,
    true_and, and_true] at h
  exact ⟨ZString.toJson_injective h.1,
    Webhooks.toJson_injective swingmetricPlayerSchema_toJson h.2.1,
    ZString.toJson_injective h.2.2⟩

/-- A shot as the parser of its vendor makes it. -/
inductive Parsed (sha256 : String → String) : NormalisedShot → Prop
  | trackpro (ulid : String) (p : TrackproPayload) (receivedAtUtc : ℤ) :
      Parsed sha256 (trackproShot sha256 ulid p receivedAtUtc p.captured_at.timeValue)
  | swingmetric (ulid : String) (shot : SwingmetricShot) (p : SwingmetricPayload)
      (receivedAtUtc : ℤ) :
      Parsed sha256 (swingmetricShot sha256 ulid shot p receivedAtUtc shot.ts_ms.value)
  | proswing (ulid : String) (p : ProswingCanonicalPayload) (receivedAtUtc : ℤ) :
      Parsed sha256 (proswingShot sha256 ulid p receivedAtUtc p.shot.occurred_at.timeValue
        ((tzMatch p.shot.occurred_at.text).getD 0) p.shot.ball_speed.toMps p.shot.carry.toM
        p.shot.deviation.toM (p.shot.total.map (·.toM)) (p.shot.club_speed.map (·.toMps)))

theorem ParserProduced.parsed {sha256 : String → String} {shot : NormalisedShot}
    (h : ParserProduced sha256 shot) : Parsed sha256 shot := by
  obtain ⟨payload, ulid, receivedAtUtc, shots, hparse, hmem⟩ := h
  cases payload with
  | trackpro p =>
      rw [parseTrackpro_ok hparse, List.mem_singleton] at hmem
      exact hmem ▸ .trackpro (ulid 0) p receivedAtUtc
  | swingmetric p =>
      obtain ⟨k, s, _, rfl⟩ := parseSwingmetric_ok hparse shot hmem
      exact .swingmetric (ulid k) s p receivedAtUtc
  | proswing p =>
      rw [parseProswing_ok hparse, List.mem_singleton] at hmem
      exact hmem ▸ .proswing (ulid 0) p.canonical receivedAtUtc

/-- The payload that is stored with a shot determines every other column of its
row, but for the id and the time of its receipt: two shots with the same one,
of whatever vendors, are the same shot. -/
theorem raw_payload_determines_shot {sha256 : String → String} {shot other : NormalisedShot}
    (hshot : ParserProduced sha256 shot) (hother : ParserProduced sha256 other)
    (hraw : shot.raw_payload = other.raw_payload) : SameButReceipt shot other := by
  -- The first key of the stored object tells the vendor.
  cases hshot.parsed with
  | trackpro ulid p receivedAtUtc =>
      cases hother.parsed with
      | trackpro ulid' q receivedAtUtc' =>
          obtain rfl : p = q := Webhooks.toJson_injective trackproSchema_toJson hraw
          rfl
      | swingmetric => simp [trackproShot, swingmetricShot, TrackproPayload.toJson] at hraw
      | proswing =>
          simp [trackproShot, proswingShot, TrackproPayload.toJson,
            ProswingCanonicalPayload.toJson] at hraw
  | swingmetric ulid s p receivedAtUtc =>
      cases hother.parsed with
      | trackpro => simp [trackproShot, swingmetricShot, TrackproPayload.toJson] at hraw
      | swingmetric ulid' t q receivedAtUtc' =>
          simp only [swingmetricShot, JsonOf.obj.injEq, List.cons.injEq, Prod.mk.injEq, true_and,
            and_true] at hraw
          obtain ⟨hsession, hplayer, hdevice⟩ := envelope_inj hraw.1
          obtain rfl : s = t := SwingmetricShot.toJson_injective hraw.2
          simp only [SameButReceipt, swingmetricShot, SwingmetricPayload.idempotencyKey,
            SwingmetricPayload.envelope, hsession, hplayer, hdevice]
      | proswing => simp [swingmetricShot, proswingShot, ProswingCanonicalPayload.toJson] at hraw
  | proswing ulid p receivedAtUtc =>
      cases hother.parsed with
      | trackpro =>
          simp [trackproShot, proswingShot, TrackproPayload.toJson,
            ProswingCanonicalPayload.toJson] at hraw
      | swingmetric => simp [swingmetricShot, proswingShot, ProswingCanonicalPayload.toJson] at hraw
      | proswing ulid' q receivedAtUtc' =>
          obtain rfl : p = q := ProswingCanonicalPayload.toJson_injective hraw
          rfl

/-- A drive that was received twice. -/
theorem drive_determined :
    SameButReceipt (driveShot driveSha256 "01HS0000000000000000000001" firstDrive 1710498606000)
      (driveShot driveSha256 "01HS0000000000000000000002" firstDrive 1710498666000) :=
  raw_payload_determines_shot parserProduced_driveShot parserProduced_driveShot rfl

end PureplayIngest.Webhooks
