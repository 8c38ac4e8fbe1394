import PureplayIngest.Ingestion.ShotIngestionProcessor
import PureplayIngest.Shared.PiiRedact
import PureplayIngest.Webhooks.IdempotencyKeys
import PureplayIngest.Webhooks.ProswingSchema

/-!
What a failure row keeps of the payload of a clock-skewed shot.

Two parsed payloads that differ only in an e-mail address or in a ProSwing
token put the same text into `raw_body`. The token is in the canonical payload
under one name, whatever the wire format called it.
-/

namespace PureplayIngest.Ingestion

open Shared Shared.Domain Shared.Kysely Webhooks

/-- The dependencies of the running code. -/
def redacting (sha256 : String → String) : Deps := ⟨sha256, fun payload => some (redactPii payload)⟩

/-- Every attempt for a job with the shot records a failure with the body given,
provided the shot is clock-skewed. -/
def RecordsBody (deps : Deps) (shot : NormalisedShot) (body : String) : Prop :=
  ∀ (job : ShotJob) (w : World) (k : ℕ), job.normalisedShot = shot →
    hasExcessiveClockSkew shot.captured_at_utc job.receivedAtUtc = true →
      ∃ w' failure, (process job).step deps w k = some (w', .returned job) ∧
        w'.db.ingestion_failures = w.db.ingestion_failures ++ [failure] ∧ failure.raw_body = body

/-- Two shots captured at the same time that leave the same body behind. -/
def SameBody (deps : Deps) (shot other : NormalisedShot) : Prop :=
  shot.captured_at_utc = other.captured_at_utc ∧
    ∃ body, RecordsBody deps shot body ∧ RecordsBody deps other body

theorem recordsBody (sha256 : String → String) (shot : NormalisedShot) :
    RecordsBody (redacting sha256) shot (redactPii shot.raw_payload) := by
  rintro job w k rfl hskew
  have hstep : (process job).step (redacting sha256) w k =
      some (World.record { w with
        db := recordIngestionFailure w.db (job.failure (redacting sha256)) }
        [job.outcome "rejected_clock"], .returned job) := by
    rw [process, if_pos hskew]
    rfl
  exact ⟨_, job.failure (redacting sha256), hstep, rfl, rfl⟩

theorem SameBody.of_redactPii_eq (sha256 : String → String) {shot other : NormalisedShot}
    (hcaptured : shot.captured_at_utc = other.captured_at_utc)
    (hbody : redactPii shot.raw_payload = redactPii other.raw_payload) :
    SameBody (redacting sha256) shot other :=
  ⟨hcaptured, _, recordsBody sha256 shot, hbody ▸ recordsBody sha256 other⟩

/-! ### SwingMetric -/

structure SameButEmail (p q : SwingmetricPayload) : Prop where
  session_id : p.session_id = q.session_id
  id : p.player.id = q.player.id
  device : p.device = q.device
  shots : p.shots = q.shots

theorem blockedPaths_parts : blockedPaths.map pathParts =
    [["player", "email"], ["envelope", "player", "email"], ["user_token"],
      ["data", "user_token"]] := by decide

theorem sameBut_field? {α : Type} {paths : List (List String)} {name : String}
    (hpath : [name] ∈ paths) (toJson : α → Json) (a b : Option α) :
    SameBut paths (Json.field? name toJson a) (Json.field? name toJson b) := by
  have hright : SameBut paths [] (Json.field? name toJson b) := by
    cases b with
    | none => exact .nil paths
    | some b => exact .right hpath _ (.nil paths)
  cases a with
  | none => exact hright
  | some a => exact .left hpath _ hright

theorem SameButEmail.redactPii_eq {p q : SwingmetricPayload} (h : SameButEmail p q)
    (shot : SwingmetricShot) :
    redactPii (.obj [("envelope", p.envelope), ("shot", shot.toJson)]) =
      redactPii (.obj [("envelope", q.envelope), ("shot", shot.toJson)]) := by
  apply redactPii_sameBut
  rw [blockedPaths_parts, SwingmetricPayload.envelope, SwingmetricPayload.envelope, h.session_id,
    h.device, SwingmetricPlayer.toJson, SwingmetricPlayer.toJson, h.id]
  refine .nested (.same _ (.nested (.same _ ?_) (.same _ (.nil _)))) (.same _ (.nil _))
  exact sameBut_field? (by decide) _ _ _

/-! ### ProSwing -/

/-- The same wire format, and the same payload but for `user_token` or `player.id`. -/
inductive SameButToken : ProswingAccepted → ProswingAccepted → Prop
  | v1 {p q : ProswingPayloadV1} (shot : p.shot = q.shot) : SameButToken (.v1 p) (.v1 q)
  | v2 {p q : ProswingPayloadV2} (shot : p.shot = q.shot) : SameButToken (.v2 p) (.v2 q)
  | v3 {p q : ProswingPayloadV3} (device_id : p.device_id = q.device_id)
      (shot : p.shot = q.shot) : SameButToken (.v3 p) (.v3 q)

theorem SameButToken.canonical_shot {p q : ProswingAccepted} (h : SameButToken p q) :
    p.canonical.shot = q.canonical.shot := by
  cases h with
  | v1 shot => simp only [ProswingAccepted.canonical, fromV1, shot]
  | v2 shot => simp only [ProswingAccepted.canonical, fromV2, shot]
  | v3 device_id shot => simp only [ProswingAccepted.canonical, fromV3, shot]

theorem redactPii_proswing {p q : ProswingCanonicalPayload} (h : p.shot = q.shot) :
    redactPii p.toJson = redactPii q.toJson := by
  apply redactPii_sameBut
  rw [blockedPaths_parts, h]
  refine .same _ (.nested ?_ (.nil _))
  exact .left (by decide) _ (.right (by decide) _ (.same _ (.nil _)))

/-! ### Parsed payloads -/

variable {sha256 : String → String} {ulid ulid' : ℕ → String} {receivedAtUtc receivedAtUtc' : ℤ}
  {shots others : List NormalisedShot}

theorem SameButEmail.sameBody {p q : SwingmetricPayload} (h : SameButEmail p q)
    (hp : parseSwingmetric sha256 ulid p receivedAtUtc = .ok shots)
    (hq : parseSwingmetric sha256 ulid' q receivedAtUtc' = .ok others) :
    List.Forall₂ (SameBody (redacting sha256)) shots others := by
  have hshots := parseShots_ok hp
  have hothers := parseShots_ok hq
  rw [← h.shots] at hothers
  clear hp hq
  generalize p.shots = batch at hshots hothers
  induction hshots generalizing others with
  | nil =>
      cases hothers with
      | nil => exact .nil
  | cons hshot _ ih =>
      cases hothers with
      | cons hother hrest =>
          obtain ⟨_, rfl⟩ := hshot
          obtain ⟨_, rfl⟩ := hother
          exact .cons (.of_redactPii_eq sha256 rfl (h.redactPii_eq _)) (ih hrest)

theorem SameButToken.sameBody {p q : ProswingAccepted} (h : SameButToken p q)
    (hp : parseProswing sha256 ulid p.canonical receivedAtUtc = .ok shots)
    (hq : parseProswing sha256 ulid' q.canonical receivedAtUtc' = .ok others) :
    List.Forall₂ (SameBody (redacting sha256)) shots others := by
  obtain rfl := parseProswing_ok hp
  obtain rfl := parseProswing_ok hq
  have hcaptured : p.canonical.shot.occurred_at.timeValue =
      q.canonical.shot.occurred_at.timeValue := by rw [h.canonical_shot]
  exact .cons (.of_redactPii_eq sha256 hcaptured (redactPii_proswing h.canonical_shot)) .nil

/-- What is deleted before a failure is recorded leaves no trace in its row. -/
theorem raw_body_hides_blocked_fields (sha256 : String → String) :
    (∀ fields others : List (String × Json), SameBut (blockedPaths.map pathParts) fields others →
      redactPii (.obj fields) = redactPii (.obj others)) ∧
    (∀ (p q : SwingmetricPayload) (ulid ulid' : ℕ → String) (receivedAtUtc receivedAtUtc' : ℤ)
        (shots others : List NormalisedShot), SameButEmail p q →
      parseSwingmetric sha256 ulid p receivedAtUtc = .ok shots →
      parseSwingmetric sha256 ulid' q receivedAtUtc' = .ok others →
      List.Forall₂ (SameBody (redacting sha256)) shots others) ∧
    (∀ (p q : ProswingAccepted) (ulid ulid' : ℕ → String) (receivedAtUtc receivedAtUtc' : ℤ)
        (shots others : List NormalisedShot), SameButToken p q →
      parseProswing sha256 ulid p.canonical receivedAtUtc = .ok shots →
      parseProswing sha256 ulid' q.canonical receivedAtUtc' = .ok others →
      List.Forall₂ (SameBody (redacting sha256)) shots others) :=
  ⟨fun _ _ => redactPii_sameBut, fun _ _ _ _ _ _ _ _ h => h.sameBody,
    fun _ _ _ _ _ _ _ _ h => h.sameBody⟩

/-! A batch whose player has an e-mail address, and a drive of another player. -/

def batchOfAnn (email : Option Email) : SwingmetricPayload :=
  { sampleBatch ⟨"ann", by decide, by decide⟩ ⟨"sim-3", by decide, by decide⟩ with
    player := ⟨⟨"ann", by decide, by decide⟩, email⟩ }

def annsEmail : Email := ⟨⟨"ann@club.org", by decide, by decide⟩, by decide⟩

def driveOfBob : ProswingPayloadV3 :=
  { drivePayloadV3 with player_id := ⟨"bob-token-22", by decide, by decide⟩ }

def fixedHash (_ : String) : String :=
  "9915d9c052746cb1613a058f47e0198374584137aad67fe17066ff5f64fd72c8"

/-- The first shot is recorded as a failure when it comes in a day and more late. -/
theorem raw_body_hides_blocked_fields_ann :
    redactPii (.obj [("user_token", .str "demo-token-1"), ("shots", .arr [.null])]) =
      redactPii (.obj [("shots", .arr [.null])]) ∧
    hasExcessiveClockSkew 1710498645123 1710588645124 = true ∧
    (∃ shot other, parseSwingmetric fixedHash (fun _ => "01HS0N8R9M0000000000000001")
        (batchOfAnn annsEmail) 1710588645124 = .ok [shot] ∧
      parseSwingmetric fixedHash (fun _ => "01HS0N8R9M0000000000000002") (batchOfAnn none)
        1710588645124 = .ok [other] ∧
      List.Forall₂ (SameBody (redacting fixedHash)) [shot] [other]) ∧
    ∃ shot other, parseProswing fixedHash (fun _ => "01HS0N8R9M0000000000000003")
        (fromV3 drivePayloadV3) 1710588645124 = .ok [shot] ∧
      parseProswing fixedHash (fun _ => "01HS0N8R9M0000000000000004") (fromV3 driveOfBob)
        1710588645124 = .ok [other] ∧
      List.Forall₂ (SameBody (redacting fixedHash)) [shot] [other] := by
  obtain ⟨hredact, hsm, hps⟩ := raw_body_hides_blocked_fields fixedHash
  refine ⟨hredact _ _ ?_, by decide, ⟨_, _, rfl, rfl, ?_⟩, _, _, rfl, rfl, ?_⟩
  · rw [blockedPaths_parts]
    exact .left (by decide) _ (.same _ (.nil _))
  · exact hsm (batchOfAnn annsEmail) (batchOfAnn none) (fun _ => "01HS0N8R9M0000000000000001")
      (fun _ => "01HS0N8R9M0000000000000002") 1710588645124 1710588645124 _ _
      ⟨rfl, rfl, rfl, rfl⟩ rfl rfl
  · exact hps (.v3 drivePayloadV3) (.v3 driveOfBob) (fun _ => "01HS0N8R9M0000000000000003")
      (fun _ => "01HS0N8R9M0000000000000004") 1710588645124 1710588645124 _ _ (.v3 rfl rfl) rfl rfl

end PureplayIngest.Ingestion
