import PureplayIngest.Identity.AuditReplay
import PureplayIngest.Lib.Serial
import PureplayIngest.Lib.WriteSets

/-!
The transactions of `linkIdentity` and `unlinkIdentity` statement by statement, any
number of them side by side.

The INSERT of a link and the DELETE of an unlink lock the row of their pair until
their transaction ends, and whoever needs the row waits; any transaction may be
rolled back at any point, as one is that has found no row to delete. The entries of
the audit log get their ids when they are written, which is before the commit, and
`now()` is the time when the transaction has begun.
-/

namespace PureplayIngest.Identity

open Shared.Domain Shared.Kysely Lib

inductive Change
  | link
  | unlink
  deriving DecidableEq

structure IdentityCall where
  change : Change
  pair : Vendor × String
  canonicalUserId : String
  actor : String
  deriving DecidableEq

/-- What a transaction has written to `user_identities`. -/
inductive IdentityWrite
  | upsert (row : VendorIdentity)
  | delete (pair : Vendor × String) (canonicalUserId : String)

structure NumberedEntry where
  id : ℕ
  entry : AuditEntry

/-- The committed tables, the log in the order of the commits, and what the open
transactions have written. -/
structure IdentityTransactions where
  user_identities : List VendorIdentity
  audit_log : List NumberedEntry
  nextIdentityId : ℕ
  nextEntryId : ℕ
  now : ℤ
  writes : WriteSets ℕ IdentityWrite
  entries : WriteSets ℕ NumberedEntry

/-- A call of `linkIdentity` or `unlinkIdentity`, up to the commit. -/
inductive IdentityCall.State
  | started (call : IdentityCall)
  | write (call : IdentityCall) (began : ℤ)
  | record (call : IdentityCall) (began : ℤ)
  | commit (call : IdentityCall)
  | committed (call : IdentityCall)
  | aborted (call : IdentityCall)

namespace IdentityCall

def action (call : IdentityCall) : AuditAction :=
  match call.change with
  | .link => .identityLink
  | .unlink => .identityUnlink

/-- What `auditLog.record` inserts. -/
def entry (call : IdentityCall) (began : ℤ) : AuditEntry where
  action := call.action
  actor := call.actor
  canonical_user_id := some call.canonicalUserId
  vendor := some call.pair.1
  vendor_user_id := some call.pair.2
  result_count := none
  created_at := began

/-- What the first statement of the transaction writes; `none` when it fails or
finds no row to delete. -/
def written (call : IdentityCall) (s : IdentityTransactions) (began : ℤ) : Option IdentityWrite :=
  match call.change with
  | .link =>
      if VarcharTakes 255 call.pair.2 ∧ VarcharTakes 26 call.canonicalUserId then
        match s.user_identities.find? fun row => pairOf row = call.pair with
        | some existing =>
            some (.upsert
              { existing with canonical_user_id := call.canonicalUserId, updated_at := s.now })
        | none =>
            some (.upsert
              { id := s.nextIdentityId, vendor := call.pair.1, vendor_user_id := call.pair.2
                canonical_user_id := call.canonicalUserId, created_at := began
                updated_at := began })
      else none
  | .unlink =>
      if s.user_identities.any fun row =>
          pairOf row = call.pair ∧ row.canonical_user_id = call.canonicalUserId then
        some (.delete call.pair call.canonicalUserId)
      else none

end IdentityCall

namespace IdentityWrite

def pair : IdentityWrite → Vendor × String
  | upsert row => pairOf row
  | delete pair _ => pair

/-- The table, when the write is committed. -/
def apply (rows : List VendorIdentity) : IdentityWrite → List VendorIdentity
  | upsert row =>
      if rows.any fun r => pairOf r = pairOf row then
        rows.map fun r => if pairOf r = pairOf row then row else r
      else rows ++ [row]
  | delete pair canonicalUserId =>
      rows.filter fun row => ¬ (pairOf row = pair ∧ row.canonical_user_id = canonicalUserId)

end IdentityWrite

namespace IdentityTransactions

/-- An open transaction has written the row of the pair. -/
def Locked (s : IdentityTransactions) (pair : Vendor × String) : Prop :=
  ∃ write ∈ s.writes, write.2.pair = pair

instance (s : IdentityTransactions) (pair : Vendor × String) : Decidable (s.Locked pair) :=
  inferInstanceAs (Decidable (∃ write ∈ s.writes, write.2.pair = pair))

/-- COMMIT of transaction `i`. -/
def publish (s : IdentityTransactions) (i : ℕ) : IdentityTransactions :=
  { s with
    user_identities := (s.writes.of i).foldl IdentityWrite.apply s.user_identities
    audit_log := s.audit_log ++ s.entries.of i
    writes := s.writes.without i
    entries := s.entries.without i }

/-- ROLLBACK of transaction `i`. -/
def rollback (s : IdentityTransactions) (i : ℕ) : IdentityTransactions :=
  { s with writes := s.writes.without i, entries := s.entries.without i }

/-- The next statement of call `i`; `none` when it fails or has to wait. -/
def statement (i : ℕ) (s : IdentityTransactions) :
    IdentityCall.State → Option (IdentityTransactions × IdentityCall.State)
  | .started call => some (s, .write call s.now)
  | .write call began =>
      if s.Locked call.pair then none
      else
        (call.written s began).map fun write =>
          ({ s with
              nextIdentityId := s.nextIdentityId + if call.change = .link then 1 else 0
              writes := s.writes ++ [(i, write)] }, .record call began)
  | .record call began =>
      some ({ s with
          nextEntryId := s.nextEntryId + 1
          entries := s.entries ++ [(i, ⟨s.nextEntryId, call.entry began⟩)] }, .commit call)
  | .commit call => some (s.publish i, .committed call)
  | .committed _ => none
  | .aborted _ => none

/-- The transaction of a call that has not ended is rolled back. -/
def abort (i : ℕ) (s : IdentityTransactions) :
    IdentityCall.State → Option (IdentityTransactions × IdentityCall.State)
  | .started call => some (s.rollback i, .aborted call)
  | .write call _ => some (s.rollback i, .aborted call)
  | .record call _ => some (s.rollback i, .aborted call)
  | .commit call => some (s.rollback i, .aborted call)
  | .committed _ => none
  | .aborted _ => none

inductive Outcome
  | ok
  | abort

def step (i : ℕ) (s : IdentityTransactions) (call : IdentityCall.State) :
    Outcome → Option (IdentityTransactions × IdentityCall.State)
  | .ok => s.statement i call
  | .abort => s.abort i call

/-- The calls, while time passes. -/
def program : Program ℕ IdentityTransactions IdentityCall.State Outcome ℕ where
  step := step
  env s ms := some { s with now := s.now + ms }

/-- Runs start with neither identities nor entries, and no transaction open. -/
def system : System (Config ℕ IdentityTransactions IdentityCall.State)
    (Action ℕ IdentityCall.State Outcome ℕ) :=
  program.system fun s =>
    s.user_identities = [] ∧ s.audit_log = [] ∧ s.writes = [] ∧ s.entries = []

/-- Calls are started from their first statement. -/
def OnlyCalls (_ : Config ℕ IdentityTransactions IdentityCall.State) :
    Action ℕ IdentityCall.State Outcome ℕ → Prop
  | .spawn _ state => ∃ call, state = .started call
  | _ => True

/-- The committed tables as the transactions of one step have them. -/
def database (s : IdentityTransactions) : Database :=
  { Database.empty s.now with
    user_identities := s.user_identities
    audit_log := s.audit_log.map (·.entry)
    nextIdentityId := s.nextIdentityId }

end IdentityTransactions

/-! ### Without ids and times -/

/-- Who is mapped to whom, and the entries without their times. -/
structure IdentityTables where
  users : List ((Vendor × String) × String)
  entries : List AuditEntry

def userOf (row : VendorIdentity) : (Vendor × String) × String :=
  (pairOf row, row.canonical_user_id)

def timeless (entry : AuditEntry) : AuditEntry := { entry with created_at := 0 }

def identityTables (db : Database) : IdentityTables :=
  ⟨db.user_identities.map userOf, db.audit_log.map timeless⟩

def upsertUser (users : List ((Vendor × String) × String)) (pair : Vendor × String)
    (canonicalUserId : String) : List ((Vendor × String) × String) :=
  if users.any fun user => user.1 = pair then
    users.map fun user => if user.1 = pair then (pair, canonicalUserId) else user
  else users ++ [(pair, canonicalUserId)]

namespace IdentityCall

/-- What the transaction of a call does in one step. -/
def transaction (call : IdentityCall) (db : Database) : Option Database :=
  match call.change with
  | .link => (linkTransaction db call.pair call.canonicalUserId call.actor).map Prod.fst
  | .unlink => unlinkTransaction db call.pair call.canonicalUserId call.actor

/-- The same, as far as ids and times do not matter. -/
def applyTo (call : IdentityCall) (t : IdentityTables) : Option IdentityTables :=
  match call.change with
  | .link =>
      if VarcharTakes 255 call.pair.2 ∧ VarcharTakes 26 call.canonicalUserId then
        some ⟨upsertUser t.users call.pair call.canonicalUserId, t.entries ++ [call.entry 0]⟩
      else none
  | .unlink =>
      if t.users.any fun user => user.1 = call.pair ∧ user.2 = call.canonicalUserId then
        some ⟨t.users.filter fun user => ¬ (user.1 = call.pair ∧ user.2 = call.canonicalUserId),
          t.entries ++ [call.entry 0]⟩
      else none

end IdentityCall

theorem mapping_eq_users (db : Database) (pair : Vendor × String) :
    mapping db pair =
      ((db.user_identities.map userOf).find? fun user => user.1 = pair).map Prod.snd := by
  rw [mapping, List.find?_map, Option.map_map]
  rfl

theorem users_upsert {rows : List VendorIdentity} {row : VendorIdentity} :
    (IdentityWrite.apply rows (.upsert row)).map userOf =
      upsertUser (rows.map userOf) (pairOf row) row.canonical_user_id := by
  have hany : ((rows.map userOf).any fun user => user.1 = pairOf row) =
      rows.any fun r => pairOf r = pairOf row := List.any_map ..
  rw [IdentityWrite.apply, upsertUser, hany]
  split
  · rw [List.map_map, List.map_map]
    refine List.map_congr_left fun r _ => ?_
    show userOf (if pairOf r = pairOf row then row else r) =
      if pairOf r = pairOf row then (pairOf row, row.canonical_user_id) else userOf r
    split
    · rfl
    · rfl
  · rw [List.map_append]
    rfl

theorem users_delete {rows : List VendorIdentity} {pair : Vendor × String} {user : String} :
    (IdentityWrite.apply rows (.delete pair user)).map userOf =
      (rows.map userOf).filter fun u => ¬ (u.1 = pair ∧ u.2 = user) := by
  rw [IdentityWrite.apply, List.filter_map]
  rfl

/-- The upsert of one step is the write that is made and then committed. -/
theorem upsertIdentity_users (db : Database) (pair : Vendor × String) (user : String) :
    (upsertIdentity db pair user).1.user_identities.map userOf =
      upsertUser (db.user_identities.map userOf) pair user := by
  have hany : ((db.user_identities.map userOf).any fun u => u.1 = pair) =
      (db.user_identities.find? fun row => pairOf row = pair).isSome := by
    rw [List.any_map, Bool.eq_iff_iff, List.find?_isSome, List.any_eq_true]
    rfl
  rw [upsertIdentity, upsertUser, hany]
  cases hfind : db.user_identities.find? fun row => pairOf row = pair with
  | some existing =>
      have hpair : pairOf existing = pair := by simpa using List.find?_some hfind
      rw [Option.isSome_some, if_pos rfl, List.map_map, List.map_map]
      refine List.map_congr_left fun r _ => ?_
      show userOf (if pairOf r = pair then _ else r) =
        if pairOf r = pair then (pair, user) else userOf r
      split
      · exact congrArg (·, user) hpair
      · rfl
  | none =>
      rw [Option.isSome_none, if_neg (by simp), List.map_append]
      rfl

/-- The transaction depends on, and leaves, tables without ids and times. -/
theorem transaction_tables (call : IdentityCall) (db : Database) :
    (call.transaction db).map identityTables = call.applyTo (identityTables db) := by
  obtain ⟨change, pair, user, actor⟩ := call
  cases change with
  | link =>
      show ((linkTransaction db pair user actor).map Prod.fst).map identityTables =
        if _ then _ else _
      rw [linkTransaction]
      split
      · obtain ⟨hlog, _⟩ := upsertIdentity_audit db pair user
        show some (identityTables (recordAudit (upsertIdentity db pair user).1 _)) = some _
        rw [identityTables, recordAudit, upsertIdentity_users, List.map_append, hlog]
        rfl
      · rfl
  | unlink =>
      show (unlinkTransaction db pair user actor).map identityTables = if _ then _ else _
      have hany : ((identityTables db).users.any fun u => u.1 = pair ∧ u.2 = user) =
          db.user_identities.any fun row => pairOf row = pair ∧ row.canonical_user_id = user :=
        List.any_map ..
      simp only [unlinkTransaction, hany]
      split
      · refine congrArg some ?_
        rw [identityTables, recordAudit, List.map_append]
        show IdentityTables.mk ((db.user_identities.filter _).map userOf) _ = _
        congr 1
        rw [identityTables, List.filter_map]
        refine congrArg _ (List.filter_congr fun row _ => ?_)
        exact decide_not.symm
      · rfl

end PureplayIngest.Identity
