import PureplayIngest.Shared.Domain.Shot

/-!
The tables the service reads and writes. A table is the list of its rows in
the order they were inserted; a row of `shots` is the shot it was inserted
from, as it has been updated since. Sequences hand out the ids of the other
tables, and `now` is the clock of the database and of the workers.
-/

namespace PureplayIngest.Shared.Kysely

open Domain

structure OutboxEvent where
  id : ℕ
  event_type : String
  payload : ShotWithoutPayload
  created_at : ℤ
  deriving DecidableEq

structure IngestionFailure where
  vendor : Vendor
  received_at_utc : ℤ
  raw_body : String
  http_status : ℤ
  error_code : String
  /-- `error_detail` has this one member. -/
  captured_at_utc : ℤ
  correlation_id : String
  deriving DecidableEq

structure VendorIdentity where
  id : ℕ
  vendor : Vendor
  vendor_user_id : String
  canonical_user_id : String
  created_at : ℤ
  updated_at : ℤ
  deriving DecidableEq

inductive AuditAction
  | identityLink
  | identityUnlink
  | identityList
  deriving DecidableEq

structure AuditEntry where
  action : AuditAction
  actor : String
  canonical_user_id : Option String
  vendor : Option Vendor
  vendor_user_id : Option String
  /-- `metadata.result_count`, which list entries have. -/
  result_count : Option ℕ
  created_at : ℤ
  deriving DecidableEq

structure Database where
  shots : List NormalisedShot
  outbox_events : List OutboxEvent
  ingestion_failures : List IngestionFailure
  user_identities : List VendorIdentity
  audit_log : List AuditEntry
  nextEventId : ℕ
  nextIdentityId : ℕ
  now : ℤ

/-- The texts of PostgreSQL do not hold the character 0. -/
def NoNul (s : String) : Prop := '\x00' ∉ s.toList

instance (s : String) : Decidable (NoNul s) := inferInstanceAs (Decidable (_ ∉ _))

/-- What a `VARCHAR(n)` column takes. -/
def VarcharTakes (n : ℕ) (s : String) : Prop := s.length ≤ n ∧ NoNul s

instance (n : ℕ) (s : String) : Decidable (VarcharTakes n s) :=
  inferInstanceAs (Decidable (_ ∧ _))

/-- What a `JSONB` column takes. -/
def JsonbTakes (json : Json) : Prop := ∀ s ∈ textsOf json, NoNul s

instance (json : Json) : Decidable (JsonbTakes json) :=
  inferInstanceAs (Decidable (∀ s ∈ _, NoNul s))

@[simp] theorem noNul_append {s t : String} : NoNul (s ++ t) ↔ NoNul s ∧ NoNul t := by
  rw [NoNul, String.toList_append, List.mem_append, not_or]
  rfl

@[simp] theorem jsonbTakes_str {s : String} : JsonbTakes (.str s) ↔ NoNul s := by
  simp [JsonbTakes, textsOf]

@[simp] theorem jsonbTakes_num {x : ℚ} : JsonbTakes (.num x) := by
  simp [JsonbTakes, textsOf]

@[simp] theorem jsonbTakes_obj {fields : List (String × Json)} :
    JsonbTakes (.obj fields) ↔ ∀ field ∈ fields, NoNul field.1 ∧ JsonbTakes field.2 := by
  rw [JsonbTakes, textsOf]
  induction fields with
  | nil => simp [textsOfFields]
  | cons field fields ih =>
      rw [textsOfFields, List.forall_mem_cons, List.forall_mem_append, List.forall_mem_cons, ih,
        and_assoc]
      rfl

@[simp] theorem jsonbTakes_field? {α : Type} {toJson : α → Json} {name : String}
    {value : Option α} (hname : NoNul name) :
    (∀ field ∈ Json.field? name toJson value, NoNul field.1 ∧ JsonbTakes field.2) ↔
      ∀ a ∈ value, JsonbTakes (toJson a) := by
  cases value with
  | none => simp [Json.field?]
  | some a => simp [Json.field?, hname]

/-- The tables a fresh installation starts with. -/
def Database.empty (now : ℤ) : Database where
  shots := []
  outbox_events := []
  ingestion_failures := []
  user_identities := []
  audit_log := []
  nextEventId := 1
  nextIdentityId := 1
  now := now

end PureplayIngest.Shared.Kysely
