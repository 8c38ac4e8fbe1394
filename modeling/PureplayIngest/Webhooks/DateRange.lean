import PureplayIngest.Webhooks.Parsed
import PureplayIngest.Webhooks.ProswingSchema
import PureplayIngest.Webhooks.SwingmetricSchema

/-!
Which accepted bodies their vendor's parser reads without throwing.

The units are no obstacle, and the dates in ISO format lie within the range
of `Date` by far. The time of a SwingMetric shot is a number of
milliseconds, and of these the schema admits more than `Date` does.
-/

namespace PureplayIngest.Webhooks

open Shared Shared.Domain

/-- What a parser is called with. -/
inductive AcceptedBody
  | trackpro (payload : TrackproPayload)
  | swingmetric (payload : SwingmetricPayload)
  | proswing (raw : Json) (payload : ProswingCanonicalPayload)
      (accepted : parseProswingRaw raw = some payload)

namespace AcceptedBody

def parse (sha256 : String → String) (ulid : ℕ → String) (receivedAtUtc : ℤ) :
    AcceptedBody → Except JsError (List NormalisedShot)
  | trackpro payload => parseTrackpro sha256 ulid payload receivedAtUtc
  | swingmetric payload => parseSwingmetric sha256 ulid payload receivedAtUtc
  | proswing _ payload _ => parseProswing sha256 ulid payload receivedAtUtc

/-- No shot lies further from the epoch than a `Date` can. -/
def InDateRange : AcceptedBody → Prop
  | swingmetric payload => ∀ shot ∈ payload.shots, shot.ts_ms.value ≤ maxTimeValue
  | _ => True

end AcceptedBody

section

variable {sha256 : String → String} {receivedAtUtc : ℤ} {payload : SwingmetricPayload}

theorem toISOString_ok_iff {t : ℤ} :
    (∃ u, toISOString t = .ok u) ↔ -maxTimeValue ≤ t ∧ t ≤ maxTimeValue := by
  constructor
  · rintro ⟨u, h⟩
    by_contra hout
    rw [toISOString, if_neg hout] at h
    exact absurd h (by simp)
  · intro h
    exact ⟨t, if_pos h⟩

theorem parseSingleShot_ok_iff {ulid : String} {shot : SwingmetricShot} :
    (∃ parsed, parseSingleShot sha256 ulid shot payload receivedAtUtc = .ok parsed) ↔
      shot.ts_ms.value ≤ maxTimeValue := by
  have hrange : (∃ u, toISOString shot.ts_ms.value = .ok u) ↔ shot.ts_ms.value ≤ maxTimeValue := by
    have hmin := shot.ts_ms.min
    rw [toISOString_ok_iff, maxTimeValue]
    omega
  rw [← hrange, parseSingleShot]
  cases toISOString shot.ts_ms.value with
  | error e => simp
  | ok capturedAtUtc => simp

/-- The batch is parsed when each of its shots is. -/
theorem parseShots_ok_iff {ulid : ℕ → String} {shots : List SwingmetricShot} :
    (∃ parsed, parseShots sha256 payload receivedAtUtc ulid shots = .ok parsed) ↔
      ∀ shot ∈ shots, shot.ts_ms.value ≤ maxTimeValue := by
  induction shots generalizing ulid with
  | nil => simp [parseShots]
  | cons shot shots ih =>
      have hfirst : (∃ first, parseSingleShot sha256 (ulid 0) shot payload receivedAtUtc =
          .ok first) ↔ shot.ts_ms.value ≤ maxTimeValue := parseSingleShot_ok_iff
      have hrest : (∃ rest, parseShots sha256 payload receivedAtUtc (fun k => ulid (k + 1)) shots =
          .ok rest) ↔ ∀ shot ∈ shots, shot.ts_ms.value ≤ maxTimeValue := ih
      rw [List.forall_mem_cons, ← hfirst, ← hrest, parseShots]
      cases parseSingleShot sha256 (ulid 0) shot payload receivedAtUtc with
      | error e => simp
      | ok first =>
          cases parseShots sha256 payload receivedAtUtc (fun k => ulid (k + 1)) shots with
          | error e => simp [Except.map]
          | ok rest => simp [Except.map]

end

theorem parse_ok_iff (sha256 : String → String) (ulid : ℕ → String) (receivedAtUtc : ℤ)
    (body : AcceptedBody) :
    (∃ shots, body.parse sha256 ulid receivedAtUtc = .ok shots) ↔ body.InDateRange := by
  cases body with
  | trackpro payload =>
      refine iff_of_true ?_ trivial
      rw [AcceptedBody.parse, parseTrackpro_eq]
      exact ⟨_, rfl⟩
  | swingmetric payload => exact parseShots_ok_iff
  | proswing raw payload accepted =>
      refine iff_of_true ?_ trivial
      rw [AcceptedBody.parse, parseProswing_eq,
        payload.shot.occurred_at.toISOString_timeValue]
      exact ⟨_, rfl⟩

/-- The first millisecond that no `Date` holds. -/
def lateShot : SwingmetricShot where
  ts_ms := ⟨8640000000000001, by decide, by decide⟩
  club := ⟨"7i", by decide, by decide⟩
  ball_speed_mph := ⟨110, by norm_num, by norm_num⟩
  swing_speed_mph := none
  launch_deg := ⟨17, by norm_num, by norm_num⟩
  spin_rpm := none
  carry_yd := ⟨165, by norm_num, by norm_num⟩
  total_yd := none
  offline_yd := ⟨-3, by norm_num, by norm_num⟩

def lateBatch : SwingmetricPayload where
  session_id := ⟨"sess-1", by decide, by decide⟩
  player := { id := ⟨"late-player-1", by decide, by decide⟩, email := none }
  device := ⟨"launch-monitor-1", by decide, by decide⟩
  shots := [lateShot]
  shots_min := Nat.le_refl 1
  shots_max := by decide

theorem late_batch_throws :
    SwingmetricShotSchema lateShot.toJson = some lateShot ∧
      (AcceptedBody.swingmetric lateBatch).parse driveSha256 (fun _ => firstId) 1710498606000 =
        .error (.rangeError "Invalid time value") := by
  constructor
  · rfl
  · rfl

end PureplayIngest.Webhooks
