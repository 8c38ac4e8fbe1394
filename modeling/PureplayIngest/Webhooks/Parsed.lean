import PureplayIngest.Webhooks.Proswing
import PureplayIngest.Webhooks.Swingmetric

/-!
What a shot is when it leaves its vendor's parser and goes into the queue.
-/

namespace PureplayIngest.Webhooks

open Shared Shared.Domain Ingestion

/-- A webhook body its vendor's schema accepted. -/
inductive VendorPayload
  | trackpro (p : TrackproPayload)
  | swingmetric (p : SwingmetricPayload)
  | proswing (p : ProswingAccepted)

/-- The controller's call of the vendor's parser. -/
def VendorPayload.parse (sha256 : String → String) (ulid : ℕ → String) (receivedAtUtc : ℤ) :
    VendorPayload → Except JsError (List NormalisedShot)
  | .trackpro p => parseTrackpro sha256 ulid p receivedAtUtc
  | .swingmetric p => parseSwingmetric sha256 ulid p receivedAtUtc
  | .proswing p => parseProswing sha256 ulid p.canonical receivedAtUtc

/-- The shots some accepted payload is parsed into. -/
def ParserProduced (sha256 : String → String) (shot : NormalisedShot) : Prop :=
  ∃ (payload : VendorPayload) (ulid : ℕ → String) (receivedAtUtc : ℤ) (shots : List NormalisedShot),
    payload.parse sha256 ulid receivedAtUtc = .ok shots ∧ shot ∈ shots

/-- What all parsers have in common: the hash is that of the shot itself, and
user and duplicate are still open. -/
structure FreshShot (sha256 : String → String) (shot : ShotWithoutPayload) : Prop where
  content_hash : shot.content_hash =
    computeContentHash sha256 (hashInputAt shot shot.captured_at_utc)
  canonical_user_id : shot.canonical_user_id = none
  duplicate_of : shot.duplicate_of = none

theorem ParserProduced.fresh {sha256 : String → String} {shot : NormalisedShot}
    (h : ParserProduced sha256 shot) : FreshShot sha256 shot.toShotWithoutPayload := by
  obtain ⟨payload, ulid, receivedAtUtc, shots, hparse, hmem⟩ := h
  cases payload with
  | trackpro p =>
      rw [parseTrackpro_ok hparse, List.mem_singleton] at hmem
      subst hmem
      exact ⟨rfl, rfl, rfl⟩
  | swingmetric p =>
      obtain ⟨k, s, _, rfl⟩ := parseSwingmetric_ok hparse shot hmem
      exact ⟨rfl, rfl, rfl⟩
  | proswing p =>
      rw [parseProswing_ok hparse, List.mem_singleton] at hmem
      subst hmem
      exact ⟨rfl, rfl, rfl⟩

/-! ### Drives of one burst -/

def drivePayload (shot_uid : ShotUid) (captured_at : IsoDateTime) : TrackproPayload where
  shot_uid := shot_uid
  user_external_id := ⟨"demo-player-1", by decide, by decide⟩
  session_id := none
  device_id := none
  captured_at := captured_at
  club := ⟨"DR", by decide, by decide⟩
  ball_speed_mps := ⟨70, by norm_num, by norm_num⟩
  club_head_speed_mps := none
  launch_angle_deg := ⟨12, by norm_num, by norm_num⟩
  spin_rpm := none
  carry_distance_m := ⟨250, by norm_num, by norm_num⟩
  total_distance_m := none
  side_deviation_m := ⟨0, by norm_num, by norm_num⟩

def driveShot (sha256 : String → String) (ulid : String) (payload : TrackproPayload)
    (receivedAtUtc : ℤ) : NormalisedShot :=
  trackproShot sha256 ulid payload receivedAtUtc payload.captured_at.timeValue

theorem parserProduced_driveShot {sha256 : String → String} {ulid : String}
    {payload : TrackproPayload} {receivedAtUtc : ℤ} :
    ParserProduced sha256 (driveShot sha256 ulid payload receivedAtUtc) := by
  refine ⟨.trackpro payload, fun _ => ulid, receivedAtUtc,
    [driveShot sha256 ulid payload receivedAtUtc], ?_, List.mem_singleton_self _⟩
  rw [VendorPayload.parse, parseTrackpro_eq, driveShot]

def firstDrive : TrackproPayload :=
  drivePayload ⟨"tp-2024-03-15-00000001", by decide⟩
    ⟨"2024-03-15T10:30:00Z", ⟨2024, 3, 15, 10, 30, 0, 0, none⟩, by decide, by decide⟩

def secondDrive : TrackproPayload :=
  drivePayload ⟨"tp-2024-03-15-00000002", by decide⟩
    ⟨"2024-03-15T10:30:05Z", ⟨2024, 3, 15, 10, 30, 5, 0, none⟩, by decide, by decide⟩

/-- The digests of the two texts that are hashed for these drives: with their
own minute, and with the one before. -/
def driveSha256 (text : String) : String :=
  if text = "demo-player-1|DR|2024-03-15T10:30|70.0|12.0|250|0" then
    "de282ba7ab20a487f7ce4768e14654f808f241650f61555c1e1e8a5cde9eebc6"
  else "7a93b95376c4a55ec8c1a3302dab14529a3761212a985bd0b5b9e580a303cda7"

def firstId : String := "01HS0N8R9M0000000000000001"

def secondId : String := "01HS0N8R9M0000000000000002"

end PureplayIngest.Webhooks
