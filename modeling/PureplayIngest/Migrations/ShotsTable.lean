import Mathlib.Algebra.Order.Ring.Rat
import PureplayIngest.Shared.Kysely.Types

/-!
What the `shots` table asks of a row: the ranges of its CHECK constraints, the
texts its columns take and the members of its club enumeration. An INSERT of a
row that misses any of them is an error of the statement.
-/

namespace PureplayIngest.Migrations

open Shared.Domain Shared.Kysely

/-- The CHECK constraints of the table. -/
structure WithinChecks (row : ShotWithoutPayload) : Prop where
  ball_speed_mps : 0 ≤ row.ball_speed_mps ∧ row.ball_speed_mps < 120
  club_head_speed_mps : ∀ x ∈ row.club_head_speed_mps, 0 ≤ x ∧ x < 100
  launch_angle_deg : -10 ≤ row.launch_angle_deg ∧ row.launch_angle_deg ≤ 70
  spin_rpm : ∀ n ∈ row.spin_rpm, 0 ≤ n ∧ n < 15000
  carry_m : 0 ≤ row.carry_m ∧ row.carry_m < 450
  total_m : ∀ x ∈ row.total_m, 0 ≤ x ∧ x < 500
  lateral_m : -200 ≤ row.lateral_m ∧ row.lateral_m ≤ 200

/-- What the character columns take. -/
structure WithinColumns (row : ShotWithoutPayload) : Prop where
  canonical_shot_id : VarcharTakes 26 row.canonical_shot_id
  vendor_shot_id : ∀ s ∈ row.vendor_shot_id, VarcharTakes 255 s
  idempotency_key : VarcharTakes 600 row.idempotency_key
  vendor_user_id : VarcharTakes 255 row.vendor_user_id
  canonical_user_id : ∀ s ∈ row.canonical_user_id, VarcharTakes 26 s
  club_raw : VarcharTakes 64 row.club_raw
  device_id : ∀ s ∈ row.device_id, VarcharTakes 255 s
  session_id : ∀ s ∈ row.session_id, VarcharTakes 255 s
  content_hash : VarcharTakes 64 row.content_hash
  parser_version : VarcharTakes 20 row.parser_version
  duplicate_of : ∀ s ∈ row.duplicate_of, VarcharTakes 26 s

/-- `club_code_enum` has the members of `VALID_CLUB_CODES`. -/
def ClubInEnum (row : ShotWithoutPayload) : Prop := ∃ c, row.club_code = .code c

/-- A row the table takes but for its payload, as far as the row alone decides. -/
structure RowAccepted (row : ShotWithoutPayload) : Prop where
  checks : WithinChecks row
  columns : WithinColumns row
  club : ClubInEnum row

/-- A row the table takes, as far as the row alone decides. -/
structure ShotAccepted (shot : NormalisedShot) : Prop where
  row : RowAccepted shot.toShotWithoutPayload
  raw_payload : JsonbTakes shot.raw_payload

/-- Which user a row has matters for the column only. -/
theorem ShotAccepted.withUser {shot : NormalisedShot} (h : ShotAccepted shot)
    {user : Option String} (huser : ∀ c ∈ user, VarcharTakes 26 c) :
    ShotAccepted { shot with canonical_user_id := user } where
  row := ⟨{ h.row.checks with }, { h.row.columns with canonical_user_id := huser }, h.row.club⟩
  raw_payload := h.raw_payload

instance (row : ShotWithoutPayload) : Decidable (WithinChecks row) :=
  decidable_of_iff
    ((0 ≤ row.ball_speed_mps ∧ row.ball_speed_mps < 120) ∧
      (∀ x ∈ row.club_head_speed_mps, 0 ≤ x ∧ x < 100) ∧
      (-10 ≤ row.launch_angle_deg ∧ row.launch_angle_deg ≤ 70) ∧
      (∀ n ∈ row.spin_rpm, 0 ≤ n ∧ n < 15000) ∧ (0 ≤ row.carry_m ∧ row.carry_m < 450) ∧
      (∀ x ∈ row.total_m, 0 ≤ x ∧ x < 500) ∧ (-200 ≤ row.lateral_m ∧ row.lateral_m ≤ 200))
    ⟨fun ⟨a, b, c, d, e, f, g⟩ => ⟨a, b, c, d, e, f, g⟩,
      fun ⟨a, b, c, d, e, f, g⟩ => ⟨a, b, c, d, e, f, g⟩⟩

instance (row : ShotWithoutPayload) : Decidable (WithinColumns row) :=
  decidable_of_iff
    (VarcharTakes 26 row.canonical_shot_id ∧ (∀ s ∈ row.vendor_shot_id, VarcharTakes 255 s) ∧
      VarcharTakes 600 row.idempotency_key ∧ VarcharTakes 255 row.vendor_user_id ∧
      (∀ s ∈ row.canonical_user_id, VarcharTakes 26 s) ∧ VarcharTakes 64 row.club_raw ∧
      (∀ s ∈ row.device_id, VarcharTakes 255 s) ∧ (∀ s ∈ row.session_id, VarcharTakes 255 s) ∧
      VarcharTakes 64 row.content_hash ∧ VarcharTakes 20 row.parser_version ∧
      (∀ s ∈ row.duplicate_of, VarcharTakes 26 s))
    ⟨fun ⟨a, b, c, d, e, f, g, h, i, j, k⟩ => ⟨a, b, c, d, e, f, g, h, i, j, k⟩,
      fun ⟨a, b, c, d, e, f, g, h, i, j, k⟩ => ⟨a, b, c, d, e, f, g, h, i, j, k⟩⟩

instance (row : ShotWithoutPayload) : Decidable (ClubInEnum row) :=
  match h : row.club_code with
  | .code c => .isTrue ⟨c, h⟩
  | .objectConstructor => .isFalse fun ⟨c, hc⟩ => by simp [h] at hc
  | .objectPrototype => .isFalse fun ⟨c, hc⟩ => by simp [h] at hc

instance (row : ShotWithoutPayload) : Decidable (RowAccepted row) :=
  decidable_of_iff (WithinChecks row ∧ WithinColumns row ∧ ClubInEnum row)
    ⟨fun ⟨a, b, c⟩ => ⟨a, b, c⟩, fun ⟨a, b, c⟩ => ⟨a, b, c⟩⟩

instance (shot : NormalisedShot) : Decidable (ShotAccepted shot) :=
  decidable_of_iff (RowAccepted shot.toShotWithoutPayload ∧ JsonbTakes shot.raw_payload)
    ⟨fun ⟨a, b⟩ => ⟨a, b⟩, fun ⟨a, b⟩ => ⟨a, b⟩⟩

end PureplayIngest.Migrations
