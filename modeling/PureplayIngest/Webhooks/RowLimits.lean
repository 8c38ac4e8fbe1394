import Mathlib.Data.Nat.Digits.Defs
import PureplayIngest.Ingestion.ShotIngestionProcessor
import PureplayIngest.Webhooks.FixedTexts
import PureplayIngest.Webhooks.Parsed

/-!
Which accepted payloads become rows the `shots` table takes.

The schemas' bounds and the table's CHECK ranges were written down apart from
each other. Every column length is respected, but several measurements may
reach a value, after conversion, that its CHECK excludes; `BelowLimits` says, in
the units of the wire format, when none does. The texts a sender is free in may
hold the character 0, which the database does not, and a club may be named as a
member of `Object.prototype`, which is none of the table's clubs.
-/

namespace PureplayIngest.Webhooks

open Shared Shared.Domain Shared.Kysely Ingestion Migrations

/-! ### The condition, in the units of the payloads -/

/-- How many of the unit are one metre per second. -/
def SpeedUnit.perMps : SpeedUnit → ℚ
  | .mph => 1 / 0.44704
  | .kph => 3.6
  | .mps => 1

/-- How many of the unit are one metre. -/
def DistanceUnit.perM : DistanceUnit → ℚ
  | .yd => 1 / 0.9144
  | .m => 1
  | .ft => 1 / 0.3048

structure TrackproPayload.BelowLimits (p : TrackproPayload) : Prop where
  ball_speed : p.ball_speed_mps.value < 120
  club_head_speed : ∀ x ∈ p.club_head_speed_mps, x.value < 100
  spin : ∀ n ∈ p.spin_rpm, n.value < 15000
  carry : p.carry_distance_m.value < 450
  total : ∀ x ∈ p.total_distance_m, x.value < 500

structure SwingmetricShot.BelowLimits (s : SwingmetricShot) : Prop where
  swing_speed : ∀ x ∈ s.swing_speed_mph, x.value < 100 * SpeedUnit.mph.perMps
  spin : ∀ n ∈ s.spin_rpm, n.value < 15000
  offline : -200 * DistanceUnit.yd.perM ≤ s.offline_yd.value ∧
    s.offline_yd.value ≤ 200 * DistanceUnit.yd.perM

/-- For the measurements of a ProSwing payload, which V2 gives in the first
unit that is populated. -/
structure ProswingCanonicalShot.BelowLimits (s : ProswingCanonicalShot) : Prop where
  ball_speed : s.ball_speed.value < 120 * s.ball_speed.unit.perMps
  club_speed : ∀ x ∈ s.club_speed, x.value < 100 * x.unit.perMps
  launch : s.launch ≤ 70
  spin : ∀ n ∈ s.spin_rpm, n < 15000
  carry : 0 ≤ s.carry.value ∧ s.carry.value < 450 * s.carry.unit.perM
  total : ∀ x ∈ s.total, 0 ≤ x.value ∧ x.value < 500 * x.unit.perM
  deviation : -200 * s.deviation.unit.perM ≤ s.deviation.value ∧
    s.deviation.value ≤ 200 * s.deviation.unit.perM

/-- The name of a club, and not of a member of `Object.prototype`. -/
def NamesClub (club : String) : Prop :=
  toLowerCase (trim club) ≠ "constructor" ∧ toLowerCase (trim club) ≠ "__proto__"

/-- The texts of a payload whose characters its schema leaves open. -/
def TrackproPayload.freeTexts (p : TrackproPayload) : List String :=
  [p.user_external_id.value, p.club.value] ++ (p.session_id.map (·.value)).toList ++
    (p.device_id.map (·.value)).toList

/-- Those a shot of the batch is stored with. -/
def SwingmetricPayload.freeTexts (p : SwingmetricPayload) (s : SwingmetricShot) : List String :=
  [p.session_id.value, p.player.id.value, p.device.value, s.club.value]

def ProswingCanonicalPayload.freeTexts (p : ProswingCanonicalPayload) : List String :=
  [p.user_token, p.shot.id, p.shot.club_code]

structure TrackproPayload.Storable (p : TrackproPayload) : Prop where
  limits : p.BelowLimits
  texts : ∀ text ∈ p.freeTexts, NoNul text
  club : NamesClub p.club.value

structure SwingmetricPayload.Storable (p : SwingmetricPayload) (s : SwingmetricShot) : Prop where
  limits : s.BelowLimits
  texts : ∀ text ∈ p.freeTexts s, NoNul text
  club : NamesClub s.club.value

structure ProswingCanonicalPayload.Storable (p : ProswingCanonicalPayload) : Prop where
  limits : p.shot.BelowLimits
  texts : ∀ text ∈ p.freeTexts, NoNul text
  club : NamesClub p.shot.club_code

/-- The payload's measurements are below the limits, its free texts do without the
character 0, and its clubs are named. -/
def VendorPayload.Storable : VendorPayload → Prop
  | .trackpro p => p.Storable
  | .swingmetric p => ∀ s ∈ p.shots, p.Storable s
  | .proswing p => p.canonical.Storable

/-! ### Conversions compare as their units do -/

theorem SpeedUnit.perMps_pos (u : SpeedUnit) : 0 < u.perMps := by
  cases u <;> norm_num [SpeedUnit.perMps]

theorem DistanceUnit.perM_pos (u : DistanceUnit) : 0 < u.perM := by
  cases u <;> norm_num [DistanceUnit.perM]

theorem Speed.toMps_eq (s : Speed) : s.toMps = s.value / s.unit.perMps := by
  obtain ⟨value, unit⟩ := s
  cases unit
  · show value * 0.44704 = value / (1 / 0.44704)
    ring
  · show value * (1 / 3.6) = value / 3.6
    ring
  · show value = value / 1
    ring

theorem Distance.toM_eq (d : Distance) : d.toM = d.value / d.unit.perM := by
  obtain ⟨value, unit⟩ := d
  cases unit
  · show value * 0.9144 = value / (1 / 0.9144)
    ring
  · show value = value / 1
    ring
  · show value * 0.3048 = value / (1 / 0.3048)
    ring

theorem Speed.toMps_nonneg {s : Speed} (h : 0 ≤ s.value) : 0 ≤ s.toMps := by
  rw [s.toMps_eq]
  exact div_nonneg h s.unit.perMps_pos.le

theorem Speed.toMps_lt {s : Speed} {limit : ℚ} :
    s.toMps < limit ↔ s.value < limit * s.unit.perMps := by
  rw [s.toMps_eq, div_lt_iff₀ s.unit.perMps_pos]

theorem Distance.toM_lt {d : Distance} {limit : ℚ} :
    d.toM < limit ↔ d.value < limit * d.unit.perM := by
  rw [d.toM_eq, div_lt_iff₀ d.unit.perM_pos]

theorem Distance.toM_le {d : Distance} {limit : ℚ} :
    d.toM ≤ limit ↔ d.value ≤ limit * d.unit.perM := by
  rw [d.toM_eq, div_le_iff₀ d.unit.perM_pos]

theorem Distance.le_toM {d : Distance} {limit : ℚ} :
    limit ≤ d.toM ↔ limit * d.unit.perM ≤ d.value := by
  rw [d.toM_eq, le_div_iff₀ d.unit.perM_pos]

theorem Distance.toM_nonneg {d : Distance} : 0 ≤ d.toM ↔ 0 ≤ d.value := by
  rw [d.le_toM, zero_mul]

/-! ### Lengths of the keys -/

/-- The seconds of a safe integer of milliseconds have at most thirteen digits. -/
theorem length_timeBucket (ts : ZInt 0 maxSafeInteger) :
    (toString (timeBucket ts.value)).length ≤ 13 := by
  have hmin := ts.min
  have hmax := ts.max
  unfold maxSafeInteger at hmax
  obtain ⟨n, hn⟩ : ∃ n : ℕ, timeBucket ts.value = n := by
    refine Int.eq_ofNat_of_zero_le ?_
    unfold timeBucket
    omega
  have hlt : n < 10 ^ 13 := by
    unfold timeBucket at hn
    omega
  rw [hn]
  show (Nat.repr n).length ≤ 13
  rw [Nat.repr, String.length_ofList]
  exact Nat.toDigits_length 10 n 13 (by omega) hlt

theorem length_swingmetricKey (shot : SwingmetricShot) (payload : SwingmetricPayload) :
    (payload.idempotencyKey shot).length ≤ 528 := by
  have hid := payload.player.id.length_le
  have hdevice := payload.device.length_le
  have hbucket := length_timeBucket shot.ts_ms
  have hsm : "sm|".length = 3 := by decide
  have hbar : "|".length = 1 := by decide
  simp only [SwingmetricPayload.idempotencyKey, String.length_append]
  omega

/-- What all accepted ProSwing payloads have in common: lengths, and the lower
bounds the table has too. -/
structure ProswingCanonicalPayload.SchemaBounds (p : ProswingCanonicalPayload) : Prop where
  user_token : p.user_token.length ≤ 255
  id : p.shot.id.length ≤ 255
  club_code : p.shot.club_code.length ≤ 64
  ball_speed : 0 ≤ p.shot.ball_speed.value
  club_speed : ∀ x ∈ p.shot.club_speed, 0 ≤ x.value
  launch : -10 ≤ p.shot.launch
  spin : ∀ n ∈ p.shot.spin_rpm, 0 ≤ n

theorem ProswingShotV2.ballSpeed_nonneg (s : ProswingShotV2) : 0 ≤ s.ballSpeed.value := by
  unfold ProswingShotV2.ballSpeed
  split
  · rename_i x _
    exact x.min
  · split
    · rename_i x _
      exact x.min
    · exact ZNumber.min _

theorem ProswingShotV2.clubSpeed_nonneg (s : ProswingShotV2) :
    ∀ x ∈ s.clubSpeed, 0 ≤ x.value := by
  intro x hx
  unfold ProswingShotV2.clubSpeed at hx
  split at hx
  · rename_i y _
    obtain rfl := Option.some.inj hx
    exact y.min
  · split at hx
    · rename_i y _
      obtain rfl := Option.some.inj hx
      exact y.min
    · obtain ⟨y, _, rfl⟩ := Option.map_eq_some_iff.mp hx
      exact y.min

theorem ProswingAccepted.schemaBounds (p : ProswingAccepted) : p.canonical.SchemaBounds := by
  cases p with
  | v1 p =>
      refine ⟨p.user_token.length_le, p.shot.id.length_le, p.shot.club_code.length_le,
        p.shot.ball_speed.value.min, fun x hx => ?_, p.shot.launch.min, by simp [canonical, fromV1]⟩
      obtain ⟨y, _, rfl⟩ := Option.map_eq_some_iff.mp hx
      exact y.value.min
  | v2 p =>
      exact ⟨p.user_token.length_le, p.shot.id.length_le, p.shot.club_code.length_le,
        p.shot.ballSpeed_nonneg, p.shot.clubSpeed_nonneg, p.shot.launch_deg.min,
        by simp [canonical, fromV2]⟩
  | v3 p =>
      refine ⟨p.player_id.length_le, p.shot.id.length_le, p.shot.club_code.length_le,
        p.shot.ball_speed.value.min, fun x hx => ?_, p.shot.launch_angle.min, fun n hn => ?_⟩
      · obtain ⟨y, _, rfl⟩ := Option.map_eq_some_iff.mp hx
        exact y.value.min
      · obtain ⟨m, _, rfl⟩ := Option.map_eq_some_iff.mp hn
        exact m.min

/-! ### Format by format -/

section

variable {sha256 : String → String} {ulid : String} {receivedAtUtc capturedAtUtc offsetMin : ℤ}

theorem clubInEnum_iff {row : ShotWithoutPayload} {club : String}
    (hclub : row.club_code = normaliseClub club) :
    ClubInEnum row ↔ NamesClub club := by
  rw [ClubInEnum, hclub]
  exact normaliseClub_eq_code_iff club

theorem trackproShot_columns (hsha : ∀ text, VarcharTakes 64 (sha256 text))
    (hulid : VarcharTakes 26 ulid) (p : TrackproPayload) :
    WithinColumns (trackproShot sha256 ulid p receivedAtUtc capturedAtUtc).toShotWithoutPayload ↔
      ∀ text ∈ p.freeTexts, NoNul text := by
  simp only [TrackproPayload.freeTexts, List.forall_mem_append, List.forall_mem_cons,
    Option.mem_toList]
  constructor
  · intro h
    exact ⟨⟨⟨h.vendor_user_id.2, h.club_raw.2, by simp⟩, fun s hs => (h.session_id s hs).2⟩,
      fun s hs => (h.device_id s hs).2⟩
  · rintro ⟨⟨⟨huser, hclub, _⟩, hsession⟩, hdevice⟩
    have htexts {s : Option (ZString 1 255)} (hs : ∀ text ∈ s.map (·.value), NoNul text) :
        ∀ text ∈ s.map (·.value), VarcharTakes 255 text := by
      intro text htext
      obtain ⟨z, _, rfl⟩ := Option.map_eq_some_iff.mp htext
      exact ⟨z.length_le, hs _ htext⟩
    refine ⟨hulid, fun s hs => ?_, ⟨?_, ?_⟩, ⟨p.user_external_id.length_le, huser⟩,
      by simp [trackproShot], ⟨p.club.length_le, hclub⟩, htexts hdevice, htexts hsession, hsha _,
      by show VarcharTakes 20 parserVersion; decide, by simp [trackproShot]⟩
    · obtain rfl : p.shot_uid.value = s := by simpa [trackproShot] using hs
      refine ⟨?_, p.shot_uid.noNul⟩
      rw [p.shot_uid.length_eq]
      omega
    · show ("tp|" ++ p.shot_uid.value).length ≤ 600
      rw [String.length_append, p.shot_uid.length_eq]
      decide
    · show NoNul ("tp|" ++ p.shot_uid.value)
      exact noNul_append.mpr ⟨by decide, p.shot_uid.noNul⟩

/-- Besides the free texts there are the shot's id and its timestamp in the payload. -/
theorem TrackproPayload.jsonbTakes_toJson (p : TrackproPayload)
    (htexts : ∀ text ∈ p.freeTexts, NoNul text) : JsonbTakes p.toJson := by
  simp only [TrackproPayload.freeTexts, List.forall_mem_append, List.forall_mem_cons,
    Option.mem_toList] at htexts
  obtain ⟨⟨⟨huser, hclub, _⟩, hsession⟩, hdevice⟩ := htexts
  have hcaptured := noNul_of_scanDateTime p.captured_at.scan
  rw [TrackproPayload.toJson, jsonbTakes_obj]
  simp +decide only [List.forall_mem_append, List.forall_mem_cons, jsonbTakes_field?,
    jsonbTakes_str, ZString.toJson, ZNumber.toJson, ZInt.toJson, jsonbTakes_num, huser, hclub,
    p.shot_uid.noNul, hcaptured, and_true, true_and, implies_true]
  exact ⟨fun z hz => hsession _ (Option.mem_map_of_mem _ hz),
    fun z hz => hdevice _ (Option.mem_map_of_mem _ hz)⟩

theorem trackproShot_checks (p : TrackproPayload) :
    WithinChecks (trackproShot sha256 ulid p receivedAtUtc capturedAtUtc).toShotWithoutPayload ↔
      p.BelowLimits := by
  constructor
  · intro h
    refine ⟨h.ball_speed_mps.2, fun x hx => ?_, fun n hn => ?_, h.carry_m.2, fun x hx => ?_⟩
    · exact (h.club_head_speed_mps x.value (Option.mem_map_of_mem _ hx)).2
    · exact (h.spin_rpm n.value (Option.mem_map_of_mem _ hn)).2
    · exact (h.total_m x.value (Option.mem_map_of_mem _ hx)).2
  · intro h
    refine ⟨⟨p.ball_speed_mps.min, h.ball_speed⟩, fun x hx => ?_,
      ⟨p.launch_angle_deg.min, p.launch_angle_deg.max⟩, fun n hn => ?_,
      ⟨p.carry_distance_m.min, h.carry⟩, fun x hx => ?_,
      ⟨p.side_deviation_m.min, p.side_deviation_m.max⟩⟩
    · obtain ⟨y, hy, rfl⟩ := Option.map_eq_some_iff.mp hx
      exact ⟨y.min, h.club_head_speed y hy⟩
    · obtain ⟨m, hm, rfl⟩ := Option.map_eq_some_iff.mp hn
      exact ⟨m.min, h.spin m hm⟩
    · obtain ⟨y, hy, rfl⟩ := Option.map_eq_some_iff.mp hx
      exact ⟨y.min, h.total y hy⟩

theorem trackproShot_accepted (hsha : ∀ text, VarcharTakes 64 (sha256 text))
    (hulid : VarcharTakes 26 ulid) (p : TrackproPayload) :
    ShotAccepted (trackproShot sha256 ulid p receivedAtUtc capturedAtUtc) ↔ p.Storable := by
  constructor
  · rintro ⟨⟨hchecks, hcolumns, hclub⟩, _⟩
    exact ⟨(trackproShot_checks p).mp hchecks, (trackproShot_columns hsha hulid p).mp hcolumns,
      (clubInEnum_iff rfl).mp hclub⟩
  · rintro ⟨hlimits, htexts, hclub⟩
    exact ⟨⟨(trackproShot_checks p).mpr hlimits, (trackproShot_columns hsha hulid p).mpr htexts,
      (clubInEnum_iff rfl).mpr hclub⟩, p.jsonbTakes_toJson htexts⟩

theorem swingmetricShot_columns (hsha : ∀ text, VarcharTakes 64 (sha256 text))
    (hulid : VarcharTakes 26 ulid) (shot : SwingmetricShot) (payload : SwingmetricPayload) :
    WithinColumns (swingmetricShot sha256 ulid shot payload receivedAtUtc
        capturedAtUtc).toShotWithoutPayload ↔
      ∀ text ∈ payload.freeTexts shot, NoNul text := by
  simp only [SwingmetricPayload.freeTexts, List.forall_mem_cons]
  constructor
  · intro h
    exact ⟨(h.session_id _ rfl).2, h.vendor_user_id.2, (h.device_id _ rfl).2, h.club_raw.2,
      by simp⟩
  · rintro ⟨hsession, huser, hdevice, hclub, _⟩
    refine ⟨hulid, by simp [swingmetricShot], ⟨?_, ?_⟩, ⟨payload.player.id.length_le, huser⟩,
      by simp [swingmetricShot], ⟨shot.club.length_le, hclub⟩, fun s hs => ?_, fun s hs => ?_,
      hsha _, by show VarcharTakes 20 parserVersion; decide, by simp [swingmetricShot]⟩
    · exact (length_swingmetricKey shot payload).trans (by omega)
    · show NoNul (payload.idempotencyKey shot)
      simp only [SwingmetricPayload.idempotencyKey, noNul_append]
      exact ⟨⟨⟨⟨⟨by decide, huser⟩, by decide⟩, hdevice⟩, by decide⟩, noNul_timeBucket shot.ts_ms⟩
    · obtain rfl : payload.device.value = s := by simpa [swingmetricShot] using hs
      exact ⟨payload.device.length_le, hdevice⟩
    · obtain rfl : payload.session_id.value = s := by simpa [swingmetricShot] using hs
      exact ⟨payload.session_id.length_le, hsession⟩

theorem jsonbTakes_swingmetric (shot : SwingmetricShot) (payload : SwingmetricPayload)
    (htexts : ∀ text ∈ payload.freeTexts shot, NoNul text) :
    JsonbTakes (.obj [("envelope", payload.envelope), ("shot", shot.toJson)]) := by
  simp only [SwingmetricPayload.freeTexts, List.forall_mem_cons] at htexts
  obtain ⟨hsession, huser, hdevice, hclub, _⟩ := htexts
  have hemail : ∀ email ∈ payload.player.email, NoNul email.value :=
    fun email _ => noNul_of_isEmail email.isEmail
  simp +decide only [SwingmetricPayload.envelope, SwingmetricPlayer.toJson,
    SwingmetricShot.toJson, jsonbTakes_obj, List.forall_mem_append, List.forall_mem_cons,
    jsonbTakes_field?, jsonbTakes_str, ZString.toJson, ZNumber.toJson, ZInt.toJson,
    jsonbTakes_num, hsession, huser, hdevice, hclub, and_true, true_and, implies_true]
  exact hemail

theorem swingmetricShot_checks (shot : SwingmetricShot) (payload : SwingmetricPayload) :
    WithinChecks (swingmetricShot sha256 ulid shot payload receivedAtUtc
      capturedAtUtc).toShotWithoutPayload ↔ shot.BelowLimits := by
  have hswing (x : ZNumber 0 230) :
      mphToMps x.value < 100 ↔ x.value < 100 * SpeedUnit.mph.perMps :=
    Speed.toMps_lt (s := ⟨x.value, .mph⟩)
  have hoffline : (-200 ≤ ydToM shot.offline_yd.value ↔
      -200 * DistanceUnit.yd.perM ≤ shot.offline_yd.value) ∧
      (ydToM shot.offline_yd.value ≤ 200 ↔ shot.offline_yd.value ≤ 200 * DistanceUnit.yd.perM) :=
    ⟨Distance.le_toM (d := ⟨_, .yd⟩), Distance.toM_le (d := ⟨_, .yd⟩)⟩
  constructor
  · intro h
    refine ⟨fun x hx => ?_, fun n hn => ?_, hoffline.1.mp h.lateral_m.1,
      hoffline.2.mp h.lateral_m.2⟩
    · exact (hswing x).mp (h.club_head_speed_mps _ (Option.mem_map_of_mem _ hx)).2
    · exact (h.spin_rpm n.value (Option.mem_map_of_mem _ hn)).2
  · intro h
    have hball := shot.ball_speed_mph.max
    have hcarry := shot.carry_yd.max
    refine ⟨⟨Speed.toMps_nonneg (s := ⟨_, .mph⟩) shot.ball_speed_mph.min, ?_⟩, fun x hx => ?_,
      ⟨shot.launch_deg.min, shot.launch_deg.max⟩, fun n hn => ?_,
      ⟨Distance.toM_nonneg (d := ⟨_, .yd⟩).mpr shot.carry_yd.min, ?_⟩, fun x hx => ?_,
      ⟨hoffline.1.mpr h.offline.1, hoffline.2.mpr h.offline.2⟩⟩
    -- The schema stops ball speed and distances short of the table's limits.
    · show shot.ball_speed_mph.value * 0.44704 < 120
      linarith
    · obtain ⟨y, hy, rfl⟩ := Option.map_eq_some_iff.mp hx
      exact ⟨Speed.toMps_nonneg (s := ⟨_, .mph⟩) y.min, (hswing y).mpr (h.swing_speed y hy)⟩
    · obtain ⟨m, hm, rfl⟩ := Option.map_eq_some_iff.mp hn
      exact ⟨m.min, h.spin m hm⟩
    · show shot.carry_yd.value * 0.9144 < 450
      linarith
    · obtain ⟨y, _, rfl⟩ := Option.map_eq_some_iff.mp hx
      have htotal := y.max
      refine ⟨Distance.toM_nonneg (d := ⟨_, .yd⟩).mpr y.min, ?_⟩
      show y.value * 0.9144 < 500
      linarith

theorem swingmetricShot_accepted (hsha : ∀ text, VarcharTakes 64 (sha256 text))
    (hulid : VarcharTakes 26 ulid) (shot : SwingmetricShot) (payload : SwingmetricPayload) :
    ShotAccepted (swingmetricShot sha256 ulid shot payload receivedAtUtc capturedAtUtc) ↔
      payload.Storable shot := by
  constructor
  · rintro ⟨⟨hchecks, hcolumns, hclub⟩, _⟩
    exact ⟨(swingmetricShot_checks shot payload).mp hchecks,
      (swingmetricShot_columns hsha hulid shot payload).mp hcolumns, (clubInEnum_iff rfl).mp hclub⟩
  · rintro ⟨hlimits, htexts, hclub⟩
    exact ⟨⟨(swingmetricShot_checks shot payload).mpr hlimits,
      (swingmetricShot_columns hsha hulid shot payload).mpr htexts,
      (clubInEnum_iff rfl).mpr hclub⟩, jsonbTakes_swingmetric shot payload htexts⟩

theorem proswingShot_columns (hsha : ∀ text, VarcharTakes 64 (sha256 text))
    (hulid : VarcharTakes 26 ulid) {p : ProswingCanonicalPayload} (hp : p.SchemaBounds)
    {ball carry lateral : ℚ} {total club : Option ℚ} :
    WithinColumns (proswingShot sha256 ulid p receivedAtUtc capturedAtUtc offsetMin ball carry
        lateral total club).toShotWithoutPayload ↔
      ∀ text ∈ p.freeTexts, NoNul text := by
  simp only [ProswingCanonicalPayload.freeTexts, List.forall_mem_cons]
  constructor
  · intro h
    exact ⟨h.vendor_user_id.2, (h.vendor_shot_id _ rfl).2, h.club_raw.2, by simp⟩
  · rintro ⟨htoken, hid, hclub, _⟩
    refine ⟨hulid, fun s hs => ?_, ⟨?_, ?_⟩, ⟨hp.user_token, htoken⟩, by simp [proswingShot],
      ⟨hp.club_code, hclub⟩, by simp [proswingShot], by simp [proswingShot], hsha _,
      by show VarcharTakes 20 parserVersion; decide, by simp [proswingShot]⟩
    · obtain rfl : p.shot.id = s := by simpa [proswingShot] using hs
      exact ⟨hp.id, hid⟩
    · show ("ps|" ++ p.user_token ++ "|" ++ p.shot.id).length ≤ 600
      have htoken := hp.user_token
      have hid := hp.id
      have hps : "ps|".length = 3 := by decide
      have hbar : "|".length = 1 := by decide
      simp only [String.length_append]
      omega
    · show NoNul ("ps|" ++ p.user_token ++ "|" ++ p.shot.id)
      simp only [noNul_append]
      exact ⟨⟨⟨by decide, htoken⟩, by decide⟩, hid⟩

theorem ProswingCanonicalPayload.jsonbTakes_toJson (p : ProswingCanonicalPayload)
    (htexts : ∀ text ∈ p.freeTexts, NoNul text) : JsonbTakes p.toJson := by
  simp only [ProswingCanonicalPayload.freeTexts, List.forall_mem_cons] at htexts
  obtain ⟨htoken, hid, hclub, _⟩ := htexts
  have hoccurred := noNul_of_scanDateTime p.shot.occurred_at.scan
  have hspeed (s : Speed) : NoNul s.unit.toString := by cases s.unit <;> decide
  have hdistance (d : Distance) : NoNul d.unit.toString := by cases d.unit <;> decide
  simp +decide only [ProswingCanonicalPayload.toJson, ProswingCanonicalShot.toJson, Speed.toJson,
    Distance.toJson, jsonbTakes_obj, List.forall_mem_append, List.forall_mem_cons,
    jsonbTakes_field?, jsonbTakes_str, jsonbTakes_num, htoken, hid, hclub, hoccurred, hspeed,
    hdistance, and_true, implies_true]

theorem proswingShot_checks {p : ProswingCanonicalPayload} (hp : p.SchemaBounds) :
    WithinChecks (proswingShot sha256 ulid p receivedAtUtc capturedAtUtc offsetMin
      p.shot.ball_speed.toMps p.shot.carry.toM p.shot.deviation.toM (p.shot.total.map (·.toM))
      (p.shot.club_speed.map (·.toMps))).toShotWithoutPayload ↔ p.shot.BelowLimits := by
  constructor
  · intro h
    refine ⟨Speed.toMps_lt.mp h.ball_speed_mps.2, fun x hx => ?_, h.launch_angle_deg.2,
      fun n hn => (h.spin_rpm n hn).2,
      ⟨Distance.toM_nonneg.mp h.carry_m.1, Distance.toM_lt.mp h.carry_m.2⟩, fun x hx => ?_,
      ⟨Distance.le_toM.mp h.lateral_m.1, Distance.toM_le.mp h.lateral_m.2⟩⟩
    · exact Speed.toMps_lt.mp (h.club_head_speed_mps _ (Option.mem_map_of_mem _ hx)).2
    · obtain ⟨h0, hlt⟩ := h.total_m _ (Option.mem_map_of_mem (fun d : Distance => d.toM) hx)
      exact ⟨Distance.toM_nonneg.mp h0, Distance.toM_lt.mp hlt⟩
  · intro h
    refine ⟨⟨Speed.toMps_nonneg hp.ball_speed, Speed.toMps_lt.mpr h.ball_speed⟩, fun x hx => ?_,
      ⟨hp.launch, h.launch⟩, fun n hn => ⟨hp.spin n hn, h.spin n hn⟩,
      ⟨Distance.toM_nonneg.mpr h.carry.1, Distance.toM_lt.mpr h.carry.2⟩, fun x hx => ?_,
      ⟨Distance.le_toM.mpr h.deviation.1, Distance.toM_le.mpr h.deviation.2⟩⟩
    · obtain ⟨y, hy, rfl⟩ := Option.map_eq_some_iff.mp hx
      exact ⟨Speed.toMps_nonneg (hp.club_speed y hy), Speed.toMps_lt.mpr (h.club_speed y hy)⟩
    · obtain ⟨y, hy, rfl⟩ := Option.map_eq_some_iff.mp hx
      obtain ⟨h0, hlt⟩ := h.total y hy
      exact ⟨Distance.toM_nonneg.mpr h0, Distance.toM_lt.mpr hlt⟩

theorem proswingShot_accepted (hsha : ∀ text, VarcharTakes 64 (sha256 text))
    (hulid : VarcharTakes 26 ulid) {p : ProswingCanonicalPayload} (hp : p.SchemaBounds) :
    ShotAccepted (proswingShot sha256 ulid p receivedAtUtc capturedAtUtc offsetMin
      p.shot.ball_speed.toMps p.shot.carry.toM p.shot.deviation.toM (p.shot.total.map (·.toM))
      (p.shot.club_speed.map (·.toMps))) ↔ p.Storable := by
  constructor
  · rintro ⟨⟨hchecks, hcolumns, hclub⟩, _⟩
    exact ⟨(proswingShot_checks hp).mp hchecks, (proswingShot_columns hsha hulid hp).mp hcolumns,
      (clubInEnum_iff rfl).mp hclub⟩
  · rintro ⟨hlimits, htexts, hclub⟩
    exact ⟨⟨(proswingShot_checks hp).mpr hlimits, (proswingShot_columns hsha hulid hp).mpr htexts,
      (clubInEnum_iff rfl).mpr hclub⟩, p.jsonbTakes_toJson htexts⟩

end

/-! ### All formats -/

theorem shotAccepted_resolvedShot {shot : NormalisedShot} {canonicalUserId : Option String}
    (huser : ∀ c ∈ canonicalUserId, VarcharTakes 26 c) (h : ShotAccepted shot) :
    ShotAccepted (resolvedShot shot canonicalUserId) := by
  unfold resolvedShot
  split
  · exact h
  · rename_i c
    split
    · exact h
    · exact h.withUser huser

variable {sha256 : String → String} {ulid : ℕ → String}

/-- The shots of an accepted payload, stored with whatever canonical user they
resolve to, are taken by the table exactly when the payload is storable. -/
theorem parsed_rows_fit_iff (hsha : ∀ text, VarcharTakes 64 (sha256 text))
    (hulid : ∀ k, VarcharTakes 26 (ulid k)) {payload : VendorPayload} {receivedAtUtc : ℤ}
    {shots : List NormalisedShot} (hparse : payload.parse sha256 ulid receivedAtUtc = .ok shots) :
    (∀ shot ∈ shots, ∀ canonicalUserId : Option String,
      (∀ c ∈ canonicalUserId, VarcharTakes 26 c) →
        ShotAccepted (resolvedShot shot canonicalUserId)) ↔ payload.Storable := by
  have haccepted : (∀ shot ∈ shots, ShotAccepted shot) ↔ payload.Storable := by
    cases payload with
    | trackpro p =>
        rw [parseTrackpro_ok hparse, List.forall_mem_singleton]
        exact trackproShot_accepted hsha (hulid 0) p
    | swingmetric p =>
        exact parseSwingmetric_forall hparse fun k shot =>
          swingmetricShot_accepted hsha (hulid k) shot p
    | proswing p =>
        rw [parseProswing_ok hparse, List.forall_mem_singleton]
        exact proswingShot_accepted hsha (hulid 0) p.schemaBounds
  rw [← haccepted]
  constructor
  · intro h shot hshot
    exact h shot hshot none (by simp)
  · intro h shot hshot canonicalUserId huser
    exact shotAccepted_resolvedShot huser (h shot hshot)

/-- A TrackPro shot whose carry is the schema's maximum. -/
def maxCarryPayload : TrackproPayload :=
  { firstDrive with
    shot_uid := ⟨"tp-2024-03-15-0a1b2c3d", by decide⟩
    carry_distance_m := ⟨450, by norm_num, by norm_num⟩ }

/-- The digest of the one text that is hashed when `maxCarryPayload` is parsed. -/
def maxCarryDigest : String := "3ad4fa89ac8e0a3dd2f9a998b79b2dd25450d7a059628fdcd8ea087686e22e91"

def sampleUlid : String := "01HS0N8R9M0000000000000001"

example :
    hashText {
      vendor_user_id := "demo-player-1", club_code := normaliseClub "DR"
      captured_at_utc := isoString maxCarryPayload.captured_at.timeValue
      ball_speed_mps := 70, launch_angle_deg := 12, carry_m := 450, lateral_m := 0 } =
      "demo-player-1|DR|2024-03-15T10:30|70.0|12.0|450|0" := by
  decide +kernel

/-- The schema's maximum of the carry is not below the table's limit. -/
theorem accepted_rows_not_all_fit :
    ¬ ∃ (sha256 : String → String) (ulid : ℕ → String),
      (∀ text, VarcharTakes 64 (sha256 text)) ∧ (∀ k, VarcharTakes 26 (ulid k)) ∧
      ∀ (payload : VendorPayload) (receivedAtUtc : ℤ) (shots : List NormalisedShot),
        payload.parse sha256 ulid receivedAtUtc = .ok shots →
        ∀ shot ∈ shots, ∀ canonicalUserId : Option String,
          (∀ c ∈ canonicalUserId, VarcharTakes 26 c) →
          ShotAccepted (resolvedShot shot canonicalUserId) := by
  rintro ⟨sha256, ulid, _, _, h⟩
  have hfits :=
    h (.trackpro maxCarryPayload) 1710498605000 _ rfl _ List.mem_cons_self none (by simp)
  have hcarry : (450 : ℚ) < 450 := hfits.row.checks.carry_m.2
  exact lt_irrefl _ hcarry

/-- `parsed_rows_fit_iff` for that payload, with its actual digest. -/
theorem parsed_rows_fit_iff_maxCarry :
    (∀ shot ∈ [trackproShot (fun _ => maxCarryDigest) sampleUlid maxCarryPayload 1710498605000
        maxCarryPayload.captured_at.timeValue],
      ∀ canonicalUserId : Option String, (∀ c ∈ canonicalUserId, VarcharTakes 26 c) →
        ShotAccepted (resolvedShot shot canonicalUserId)) ↔
      (VendorPayload.trackpro maxCarryPayload).Storable :=
  have hparse : (VendorPayload.trackpro maxCarryPayload).parse (fun _ => maxCarryDigest)
      (fun _ => sampleUlid) 1710498605000 = .ok [trackproShot (fun _ => maxCarryDigest) sampleUlid
        maxCarryPayload 1710498605000 maxCarryPayload.captured_at.timeValue] := rfl
  parsed_rows_fit_iff (fun _ => by decide) (fun _ => by decide) hparse

end PureplayIngest.Webhooks
