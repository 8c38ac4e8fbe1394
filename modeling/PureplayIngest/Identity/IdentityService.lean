import Mathlib.Data.List.Pairwise
import Mathlib.Logic.Function.Basic
import PureplayIngest.Shared.Kysely.Types

/-!
`IdentityService`, one step for each round trip to the database or to Redis.

A cache entry can expire at any moment, so its lifetime is not recorded. The
values of the two kinds of keys are kept apart by `CacheValue`: the strings
of the resolve cache, and the rows whose JSON the list cache holds. No key is
of both kinds, and a read that finds the wrong kind is not a step.
-/

namespace PureplayIngest.Identity

open Shared.Domain Shared.Kysely

inductive CacheValue
  | text (s : String)
  | identities (rows : List VendorIdentity)
  deriving DecidableEq

abbrev Redis := String → Option CacheValue

def Redis.set (redis : Redis) (key : String) (value : CacheValue) : Redis :=
  Function.update redis key (some value)

/-- `redis.del(...keys)`. -/
def Redis.del (redis : Redis) (keys : List String) : Redis :=
  fun key => if key ∈ keys then none else redis key

def identityCacheKey (vendor : Vendor) (vendorUserId : String) : String :=
  "identity:" ++ vendor.toString ++ ":" ++ vendorUserId

def identityListCacheKey (canonicalUserId : String) : String :=
  "identity-list:" ++ canonicalUserId

/-- The DEL a link or an unlink ends with. -/
def Redis.evict (redis : Redis) (pair : Vendor × String) (canonicalUserId : String) : Redis :=
  redis.del [identityCacheKey pair.1 pair.2, identityListCacheKey canonicalUserId]

/-- What a worker or a request handler acts on. -/
structure Stores where
  db : Database
  redis : Redis

/-! ### The table -/

def pairOf (row : VendorIdentity) : Vendor × String := (row.vendor, row.vendor_user_id)

/-- The canonical user the table maps a pair to. -/
def mapping (db : Database) (pair : Vendor × String) : Option String :=
  (db.user_identities.find? fun row => pairOf row = pair).map (·.canonical_user_id)

def identitiesOf (db : Database) (canonicalUserId : String) : List VendorIdentity :=
  db.user_identities.filter fun row => row.canonical_user_id = canonicalUserId

/-- `AuditLogService.record`. -/
def recordAudit (db : Database) (entry : AuditEntry) : Database :=
  { db with audit_log := db.audit_log ++ [entry] }

/-- `INSERT ... ON CONFLICT (vendor, vendor_user_id) DO UPDATE ... RETURNING *`. -/
def upsertIdentity (db : Database) (pair : Vendor × String) (canonicalUserId : String) :
    Database × VendorIdentity :=
  match db.user_identities.find? fun row => pairOf row = pair with
  | some existing =>
      let row := { existing with canonical_user_id := canonicalUserId, updated_at := db.now }
      ({ db with
          user_identities := db.user_identities.map fun r => if pairOf r = pair then row else r
          nextIdentityId := db.nextIdentityId + 1 }, row)
  | none =>
      let row : VendorIdentity := {
        id := db.nextIdentityId, vendor := pair.1, vendor_user_id := pair.2
        canonical_user_id := canonicalUserId, created_at := db.now, updated_at := db.now }
      ({ db with
          user_identities := db.user_identities ++ [row]
          nextIdentityId := db.nextIdentityId + 1 }, row)

/-- The transaction of `linkIdentity`; it fails when a column does not take its value. -/
def linkTransaction (db : Database) (pair : Vendor × String) (canonicalUserId actor : String) :
    Option (Database × VendorIdentity) :=
  if VarcharTakes 255 pair.2 ∧ VarcharTakes 26 canonicalUserId then
    let (db, row) := upsertIdentity db pair canonicalUserId
    some (recordAudit db {
      action := .identityLink, actor := actor, canonical_user_id := some canonicalUserId
      vendor := some pair.1, vendor_user_id := some pair.2, result_count := none
      created_at := db.now }, row)
  else none

/-- The transaction of `unlinkIdentity`; `none` is `IdentityNotFoundError`. -/
def unlinkTransaction (db : Database) (pair : Vendor × String) (canonicalUserId actor : String) :
    Option Database :=
  let linked (row : VendorIdentity) : Bool :=
    pairOf row = pair ∧ row.canonical_user_id = canonicalUserId
  if db.user_identities.any linked then
    let db := { db with user_identities := db.user_identities.filter fun row => !linked row }
    some (recordAudit db {
      action := .identityUnlink, actor := actor, canonical_user_id := some canonicalUserId
      vendor := some pair.1, vendor_user_id := some pair.2, result_count := none
      created_at := db.now })
  else none

/-- The backfill UPDATE of `linkIdentity`. -/
def backfillCanonicalUser (db : Database) (pair : Vendor × String) (canonicalUserId : String) :
    Database :=
  { db with
    shots := db.shots.map fun row =>
      if row.vendor = pair.1 ∧ row.vendor_user_id = pair.2 ∧ row.canonical_user_id = none then
        { row with canonical_user_id := some canonicalUserId }
      else row }

/-! ### The calls -/

inductive ResolveState
  | get (pair : Vendor × String)
  | select (pair : Vendor × String)
  | set (pair : Vendor × String) (result : Option String)
  | returned (pair : Vendor × String) (result : Option String)
  deriving DecidableEq

/-- The call. Its vendor comes from a shot, so it always is one of `VALID_VENDORS`. -/
def resolveCanonicalUserId (vendor : Vendor) (vendorUserId : String) : ResolveState :=
  .get (vendor, vendorUserId)

def ResolveState.step (w : Stores) : ResolveState → Option (Stores × ResolveState)
  | .get pair =>
      match w.redis (identityCacheKey pair.1 pair.2) with
      | some (.text cached) =>
          some (w, .returned pair (if cached = "" then none else some cached))
      | some (.identities _) => none
      | none => some (w, .select pair)
  | .select pair => some (w, .set pair (mapping w.db pair))
  | .set pair result =>
      let redis := w.redis.set (identityCacheKey pair.1 pair.2) (.text (result.getD ""))
      some ({ w with redis }, .returned pair result)
  | .returned _ _ => none

/-- Resolving writes no table. -/
theorem ResolveState.step_db {w w' : Stores} {s s' : ResolveState}
    (h : s.step w = some (w', s')) : w'.db = w.db := by
  cases s with
  | get pair =>
      simp only [ResolveState.step] at h
      split at h
      · exact (Prod.mk.inj (Option.some.inj h)).1 ▸ rfl
      · exact absurd h (by simp)
      · exact (Prod.mk.inj (Option.some.inj h)).1 ▸ rfl
  | select pair => exact (Prod.mk.inj (Option.some.inj h)).1 ▸ rfl
  | set pair result => exact (Prod.mk.inj (Option.some.inj h)).1 ▸ rfl
  | returned pair result => exact absurd h (by simp [ResolveState.step])

inductive LinkState
  | commit (pair : Vendor × String) (canonicalUserId actor : String)
  | del (pair : Vendor × String) (canonicalUserId : String) (row : VendorIdentity)
  | backfill (pair : Vendor × String) (canonicalUserId : String) (row : VendorIdentity)
  | finished (pair : Vendor × String) (canonicalUserId : String) (row : VendorIdentity)
      (backfilled : Bool)
  | rejected (pair : Vendor × String) (canonicalUserId : String) (committed : Bool)
  deriving DecidableEq

/-- The steps of a link that succeed; the backfill comes after the call has returned. -/
def LinkState.step (w : Stores) : LinkState → Option (Stores × LinkState)
  | .commit pair canonicalUserId actor =>
      (linkTransaction w.db pair canonicalUserId actor).map fun (db, row) =>
        ({ w with db }, .del pair canonicalUserId row)
  | .del pair canonicalUserId row =>
      some ({ w with redis := w.redis.evict pair canonicalUserId },
        .backfill pair canonicalUserId row)
  | .backfill pair canonicalUserId row =>
      some ({ w with db := backfillCanonicalUser w.db pair canonicalUserId },
        .finished pair canonicalUserId row true)
  | .finished _ _ _ _ => none
  | .rejected _ _ _ => none

/-- A step fails and has no effect. The call is rejected, unless it has returned
already; what is committed by then stays. -/
def LinkState.fail : LinkState → Option LinkState
  | .commit pair canonicalUserId _ => some (.rejected pair canonicalUserId false)
  | .del pair canonicalUserId _ => some (.rejected pair canonicalUserId true)
  | .backfill pair canonicalUserId row => some (.finished pair canonicalUserId row false)
  | .finished _ _ _ _ => none
  | .rejected _ _ _ => none

inductive UnlinkState
  | commit (pair : Vendor × String) (canonicalUserId actor : String)
  | del (pair : Vendor × String) (canonicalUserId : String)
  | finished (pair : Vendor × String) (canonicalUserId : String)
  | notFound (pair : Vendor × String) (canonicalUserId : String)
  | rejected (pair : Vendor × String) (canonicalUserId : String) (committed : Bool)
  deriving DecidableEq

def UnlinkState.step (w : Stores) : UnlinkState → Option (Stores × UnlinkState)
  | .commit pair canonicalUserId actor =>
      match unlinkTransaction w.db pair canonicalUserId actor with
      | some db => some ({ w with db := db }, .del pair canonicalUserId)
      | none => some (w, .notFound pair canonicalUserId)
  | .del pair canonicalUserId =>
      some ({ w with redis := w.redis.evict pair canonicalUserId }, .finished pair canonicalUserId)
  | .finished _ _ => none
  | .notFound _ _ => none
  | .rejected _ _ _ => none

def UnlinkState.fail : UnlinkState → Option UnlinkState
  | .commit pair canonicalUserId _ => some (.rejected pair canonicalUserId false)
  | .del pair canonicalUserId => some (.rejected pair canonicalUserId true)
  | .finished _ _ => none
  | .notFound _ _ => none
  | .rejected _ _ _ => none

inductive ListState
  | get (canonicalUserId actor : String)
  | select (canonicalUserId actor : String)
  | set (canonicalUserId actor : String) (rows : List VendorIdentity)
  | audit (canonicalUserId actor : String) (rows : List VendorIdentity)
  | finished (canonicalUserId : String) (rows : List VendorIdentity)
  deriving DecidableEq

/-- `ORDER BY created_at ASC` returns the rows in an order that is not
determined where creation times are equal; `rows` is the one that was. -/
def OrderedByCreation (rows selected : List VendorIdentity) : Prop :=
  rows.Perm selected ∧ rows.Pairwise fun a b => a.created_at ≤ b.created_at

instance (rows selected : List VendorIdentity) : Decidable (OrderedByCreation rows selected) :=
  inferInstanceAs (Decidable (_ ∧ _))

def ListState.step (w : Stores) (order : List VendorIdentity) :
    ListState → Option (Stores × ListState)
  | .get canonicalUserId actor =>
      match w.redis (identityListCacheKey canonicalUserId) with
      | some (.identities rows) => some (w, .audit canonicalUserId actor rows)
      | some (.text _) => none
      | none => some (w, .select canonicalUserId actor)
  | .select canonicalUserId actor =>
      if OrderedByCreation order (identitiesOf w.db canonicalUserId) then
        some (w, .set canonicalUserId actor order)
      else none
  | .set canonicalUserId actor rows =>
      let redis := w.redis.set (identityListCacheKey canonicalUserId) (.identities rows)
      some ({ w with redis }, .audit canonicalUserId actor rows)
  | .audit canonicalUserId actor rows =>
      let entry : AuditEntry := {
        action := .identityList, actor := actor, canonical_user_id := some canonicalUserId
        vendor := none, vendor_user_id := none, result_count := some rows.length
        created_at := w.db.now }
      some ({ w with db := recordAudit w.db entry }, .finished canonicalUserId rows)
  | .finished _ _ => none

/-- A SET that fails is logged, and the call goes on as if it had succeeded. -/
def ListState.fail : ListState → Option ListState
  | .set canonicalUserId actor rows => some (.audit canonicalUserId actor rows)
  | _ => none

end PureplayIngest.Identity
