import PureplayIngest.Shared.Domain.Units
import PureplayIngest.Webhooks.Trackpro

/-! SwingMetric batches, in the field names both wire formats are normalised to,
and their parser. -/

namespace PureplayIngest.Webhooks

open Shared Shared.Domain Ingestion

/-- Zod's e-mail pattern, local part and domain apart. -/
def isEmailLocalChar (ch : Char) : Bool :=
  ch.isAlphanum || ch ∈ ['_', '\'', '+', '-', '.']

/-- `a.b` with no dot at either end and none next to another. -/
def dotsSeparated : List Char → Bool
  | [] => true
  | ['.'] => false
  | '.' :: '.' :: _ => false
  | _ :: chars => dotsSeparated chars

def isDomainLabel (label : List Char) : Bool :=
  match label with
  | [] => false
  | ch :: chars => ch.isAlphanum && chars.all fun x => x.isAlphanum || x = '-'

/-- `z.string().email()`. -/
def isEmail (s : String) : Bool :=
  match s.toList.splitOn '@' with
  | [name, domain] =>
      match (domain.splitOn '.').reverse with
      | top :: label :: labels =>
          name.head?.any (· ≠ '.') && dotsSeparated name && name.all isEmailLocalChar &&
            name.getLast?.any (fun ch => ch.isAlphanum || ch ∈ ['_', '+', '-']) &&
            (label :: labels).all isDomainLabel && 2 ≤ top.length && top.all Char.isAlpha
      | _ => false
  | _ => false

structure Email extends ZString 0 254 where
  isEmail : isEmail value = true

structure SwingmetricShot where
  ts_ms : ZInt 0 maxSafeInteger
  club : ZString 1 64
  ball_speed_mph : ZNumber 0 268
  swing_speed_mph : Option (ZNumber 0 230)
  launch_deg : ZNumber (-10) 70
  spin_rpm : Option (ZInt 0 15000)
  carry_yd : ZNumber 0 490
  total_yd : Option (ZNumber 0 545)
  offline_yd : ZNumber (-220) 220

structure SwingmetricPlayer where
  id : ZString 1 255
  email : Option Email

structure SwingmetricPayload where
  session_id : ZString 1 255
  player : SwingmetricPlayer
  device : ZString 1 255
  shots : List SwingmetricShot
  shots_min : 1 ≤ shots.length
  shots_max : shots.length ≤ 500

def SwingmetricShot.toJson (shot : SwingmetricShot) : Json :=
  .obj ([("ts_ms", shot.ts_ms.toJson), ("club", shot.club.toJson),
      ("ball_speed_mph", shot.ball_speed_mph.toJson)] ++
    Json.field? "swing_speed_mph" ZNumber.toJson shot.swing_speed_mph ++
    [("launch_deg", shot.launch_deg.toJson)] ++
    Json.field? "spin_rpm" ZInt.toJson shot.spin_rpm ++
    [("carry_yd", shot.carry_yd.toJson)] ++
    Json.field? "total_yd" ZNumber.toJson shot.total_yd ++
    [("offline_yd", shot.offline_yd.toJson)])

def SwingmetricPlayer.toJson (player : SwingmetricPlayer) : Json :=
  .obj (("id", player.id.toJson) ::
    Json.field? "email" (fun email : Email => email.toZString.toJson) player.email)

/-- The envelope goes into every shot's `raw_payload`, the other shots do not. -/
def SwingmetricPayload.envelope (p : SwingmetricPayload) : Json :=
  .obj [("session_id", p.session_id.toJson), ("player", p.player.toJson),
    ("device", p.device.toJson)]

/-- The whole second a shot falls into, which its idempotency key is made of. -/
def timeBucket (ts_ms : ℤ) : ℤ := ts_ms / 1000

def SwingmetricPayload.idempotencyKey (payload : SwingmetricPayload) (shot : SwingmetricShot) :
    String :=
  "sm|" ++ payload.player.id.value ++ "|" ++ payload.device.value ++ "|" ++
    toString (timeBucket shot.ts_ms.value)

/-- The shot `parseSingleShot` builds once it has the capture time. -/
def swingmetricShot (sha256 : String → String) (ulid : String) (shot : SwingmetricShot)
    (payload : SwingmetricPayload) (receivedAtUtc capturedAtUtc : ℤ) : NormalisedShot where
  canonical_shot_id := ulid
  vendor := .swingmetric
  vendor_shot_id := none
  idempotency_key := payload.idempotencyKey shot
  vendor_user_id := payload.player.id.value
  canonical_user_id := none
  captured_at_utc := capturedAtUtc
  captured_at_tz_offset_min := none
  received_at_utc := receivedAtUtc
  club_code := normaliseClub shot.club.value
  club_raw := shot.club.value
  ball_speed_mps := mphToMps shot.ball_speed_mph.value
  club_head_speed_mps := shot.swing_speed_mph.map fun x => mphToMps x.value
  launch_angle_deg := shot.launch_deg.value
  spin_rpm := shot.spin_rpm.map (·.value)
  carry_m := ydToM shot.carry_yd.value
  total_m := shot.total_yd.map fun x => ydToM x.value
  lateral_m := ydToM shot.offline_yd.value
  device_id := some payload.device.value
  session_id := some payload.session_id.value
  content_hash := computeContentHash sha256 {
    vendor_user_id := payload.player.id.value
    club_code := normaliseClub shot.club.value
    captured_at_utc := isoString capturedAtUtc
    ball_speed_mps := mphToMps shot.ball_speed_mph.value
    launch_angle_deg := shot.launch_deg.value
    carry_m := ydToM shot.carry_yd.value
    lateral_m := ydToM shot.offline_yd.value }
  schema_version := 1
  parser_version := parserVersion
  duplicate_of := none
  raw_payload := .obj [("envelope", payload.envelope), ("shot", shot.toJson)]

def parseSingleShot (sha256 : String → String) (ulid : String) (shot : SwingmetricShot)
    (payload : SwingmetricPayload) (receivedAtUtc : ℤ) : Except JsError NormalisedShot :=
  match toISOString shot.ts_ms.value with
  | .error e => .error e
  | .ok capturedAtUtc => .ok (swingmetricShot sha256 ulid shot payload receivedAtUtc capturedAtUtc)

/-- `payload.shots.map(...)`; the first shot that throws ends the whole parse. -/
def parseShots (sha256 : String → String) (payload : SwingmetricPayload) (receivedAtUtc : ℤ) :
    (ℕ → String) → List SwingmetricShot → Except JsError (List NormalisedShot)
  | _, [] => .ok []
  | ulid, shot :: shots =>
      match parseSingleShot sha256 (ulid 0) shot payload receivedAtUtc with
      | .error e => .error e
      | .ok first =>
          (parseShots sha256 payload receivedAtUtc (fun k => ulid (k + 1)) shots).map (first :: ·)

def parseSwingmetric (sha256 : String → String) (ulid : ℕ → String)
    (payload : SwingmetricPayload) (receivedAtUtc : ℤ) : Except JsError (List NormalisedShot) :=
  parseShots sha256 payload receivedAtUtc ulid payload.shots

variable {sha256 : String → String} {payload : SwingmetricPayload} {receivedAtUtc : ℤ}

theorem parseSingleShot_ok {ulid : String} {shot : SwingmetricShot} {parsed : NormalisedShot}
    (h : parseSingleShot sha256 ulid shot payload receivedAtUtc = .ok parsed) :
    parsed = swingmetricShot sha256 ulid shot payload receivedAtUtc shot.ts_ms.value := by
  unfold parseSingleShot at h
  cases hiso : toISOString shot.ts_ms.value with
  | error e => simp [hiso] at h
  | ok capturedAtUtc =>
      obtain rfl := toISOString_ok hiso
      simpa [hiso] using h.symm

theorem parseShots_ok {shots : List SwingmetricShot} {ulid : ℕ → String}
    {parsed : List NormalisedShot}
    (h : parseShots sha256 payload receivedAtUtc ulid shots = .ok parsed) :
    List.Forall₂ (fun shot s => ∃ k,
      s = swingmetricShot sha256 (ulid k) shot payload receivedAtUtc shot.ts_ms.value)
      shots parsed := by
  induction shots generalizing ulid parsed with
  | nil =>
      obtain rfl : [] = parsed := by simpa [parseShots] using h
      exact .nil
  | cons shot shots ih =>
      rw [parseShots] at h
      cases hfirst : parseSingleShot sha256 (ulid 0) shot payload receivedAtUtc with
      | error e => simp [hfirst] at h
      | ok first =>
          cases hrest : parseShots sha256 payload receivedAtUtc (fun k => ulid (k + 1)) shots with
          | error e => simp [hfirst, hrest, Except.map] at h
          | ok rest =>
              obtain rfl : first :: rest = parsed := by simpa [hfirst, hrest, Except.map] using h
              refine .cons ⟨0, parseSingleShot_ok hfirst⟩ ((ih hrest).imp ?_)
              rintro shot' s ⟨k, rfl⟩
              exact ⟨k + 1, rfl⟩

/-- A property of the parsed shots is one of the shots of the batch. -/
theorem parseSwingmetric_forall {ulid : ℕ → String} {parsed : List NormalisedShot}
    {P : NormalisedShot → Prop} {Q : SwingmetricShot → Prop}
    (h : parseSwingmetric sha256 ulid payload receivedAtUtc = .ok parsed)
    (hPQ : ∀ k shot,
      P (swingmetricShot sha256 (ulid k) shot payload receivedAtUtc shot.ts_ms.value) ↔ Q shot) :
    (∀ s ∈ parsed, P s) ↔ ∀ shot ∈ payload.shots, Q shot := by
  have hall := parseShots_ok h
  clear h
  generalize payload.shots = batch at hall ⊢
  induction hall with
  | nil => simp
  | cons hfirst _ ih =>
      obtain ⟨k, rfl⟩ := hfirst
      rw [List.forall_mem_cons, List.forall_mem_cons]
      exact and_congr (hPQ k _) ih

theorem parseSwingmetric_ok {ulid : ℕ → String} {parsed : List NormalisedShot}
    (h : parseSwingmetric sha256 ulid payload receivedAtUtc = .ok parsed) :
    ∀ s ∈ parsed, ∃ k, ∃ shot ∈ payload.shots,
      s = swingmetricShot sha256 (ulid k) shot payload receivedAtUtc shot.ts_ms.value := by
  have hall := parseShots_ok h
  clear h
  generalize payload.shots = batch at hall ⊢
  induction hall with
  | nil => simp
  | @cons shot first shots rest hfirst _ ih =>
      intro s hs
      rcases List.mem_cons.mp hs with rfl | hs
      · obtain ⟨k, hk⟩ := hfirst
        exact ⟨k, shot, List.mem_cons_self, hk⟩
      · obtain ⟨k, shot', hmem, hk⟩ := ih s hs
        exact ⟨k, shot', List.mem_cons_of_mem _ hmem, hk⟩

end PureplayIngest.Webhooks
