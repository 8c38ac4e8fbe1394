import PureplayIngest.Identity.PairEffect

/-!
The audit log as the history of `user_identities`.

Replaying its link and unlink entries, in the order in which they were
committed, gives the mapping the table holds: each transaction writes its entry
together with its change of the table, or neither.
-/

namespace PureplayIngest

open Shared.Domain Shared.Kysely Identity Ingestion Lib

/-! ### The log -/

namespace Identity

/-- What an entry says of the mapping; those of listings say nothing. -/
def replayEntry (users : Vendor × String → Option String) (entry : AuditEntry) :
    Vendor × String → Option String :=
  match entry.action, entry.vendor, entry.vendor_user_id with
  | .identityLink, some vendor, some vendorUserId =>
      Function.update users (vendor, vendorUserId) entry.canonical_user_id
  | .identityUnlink, some vendor, some vendorUserId =>
      Function.update users (vendor, vendorUserId) none
  | _, _, _ => users

def replay (log : List AuditEntry) : Vendor × String → Option String :=
  log.foldl replayEntry fun _ => none

theorem replay_append (log : List AuditEntry) (entry : AuditEntry) :
    replay (log ++ [entry]) = replayEntry (replay log) entry := by
  rw [replay, List.foldl_append]
  rfl

theorem replayEntry_list {entry : AuditEntry} (h : entry.action = .identityList)
    (users : Vendor × String → Option String) : replayEntry users entry = users := by
  rw [replayEntry, h]

/-- What a link that commits writes to the log. -/
def linkEntry (db : Database) (pair : Vendor × String) (canonicalUserId actor : String) :
    AuditEntry :=
  { action := .identityLink, actor := actor, canonical_user_id := some canonicalUserId
    vendor := some pair.1, vendor_user_id := some pair.2, result_count := none
    created_at := db.now }

def unlinkEntry (db : Database) (pair : Vendor × String) (canonicalUserId actor : String) :
    AuditEntry :=
  { action := .identityUnlink, actor := actor, canonical_user_id := some canonicalUserId
    vendor := some pair.1, vendor_user_id := some pair.2, result_count := none
    created_at := db.now }

variable {db db' : Database} {pair : Vendor × String} {c actor : String} {row : VendorIdentity}

theorem upsertIdentity_audit (db : Database) (pair : Vendor × String) (c : String) :
    (upsertIdentity db pair c).1.audit_log = db.audit_log ∧
      (upsertIdentity db pair c).1.now = db.now := by
  rw [upsertIdentity]
  split <;> exact ⟨rfl, rfl⟩

theorem linkTransaction_audit (h : linkTransaction db pair c actor = some (db', row)) :
    db'.audit_log = db.audit_log ++ [linkEntry db pair c actor] := by
  obtain ⟨hlog, hnow⟩ := upsertIdentity_audit db pair c
  rw [linkTransaction] at h
  split at h
  · obtain ⟨rfl, _⟩ := Prod.mk.inj (Option.some.inj h)
    show (upsertIdentity db pair c).1.audit_log ++
      [linkEntry (upsertIdentity db pair c).1 pair c actor] = _
    rw [hlog, linkEntry, hnow]
    rfl
  · exact absurd h (by simp)

theorem unlinkTransaction_audit (h : unlinkTransaction db pair c actor = some db') :
    db'.audit_log = db.audit_log ++ [unlinkEntry db pair c actor] := by
  simp only [unlinkTransaction] at h
  split at h
  · obtain rfl := Option.some.inj h
    rfl
  · exact absurd h (by simp)

end Identity

/-! ### Steps -/

/-- What one step of a call does to mappings and log. -/
inductive AuditEffect (w w' : World) : Prop
  | same (h : SameIdentityTables w.db w'.db)
  | listed (entry : AuditEntry) (haction : entry.action = .identityList)
      (htable : w'.db.user_identities = w.db.user_identities)
      (hlog : w'.db.audit_log = w.db.audit_log ++ [entry])
  | linked (pair : Vendor × String) (c actor : String) (htable : Linked w.db w'.db pair c)
      (hlog : w'.db.audit_log = w.db.audit_log ++ [linkEntry w.db pair c actor])
  | unlinked (pair : Vendor × String) (c actor : String) (htable : Unlinked w.db w'.db pair c)
      (hlog : w'.db.audit_log = w.db.audit_log ++ [unlinkEntry w.db pair c actor])

section

variable {deps : Deps} {w w' : World}

theorem SameIdentityTables.of_eq {db db' : Database} (h : db' = db) : SameIdentityTables db db' :=
  h ▸ ⟨rfl, rfl⟩

theorem link_auditEffect {s s' : LinkState} {stores : Stores}
    (h : s.step w.toStores = some (stores, s')) : AuditEffect w { w with toStores := stores } := by
  cases s with
  | commit pair c actor =>
      obtain ⟨⟨db, row⟩, hlink, heq⟩ := Option.map_eq_some_iff.mp h
      obtain ⟨rfl, rfl⟩ := Prod.mk.inj heq
      exact .linked pair c actor (linkTransaction_linked hlink) (linkTransaction_audit hlink)
  | del pair c row => exact .same (.of_eq ((Prod.mk.inj (Option.some.inj h)).1 ▸ rfl))
  | backfill pair c row => exact .same ((Prod.mk.inj (Option.some.inj h)).1 ▸ ⟨rfl, rfl⟩)
  | _ => exact absurd h (by simp [LinkState.step])

theorem unlink_auditEffect {s s' : UnlinkState} {stores : Stores} (hunique : UniquePairs w.db)
    (h : s.step w.toStores = some (stores, s')) : AuditEffect w { w with toStores := stores } := by
  cases s with
  | commit pair c actor =>
      simp only [UnlinkState.step] at h
      split at h
      · rename_i db hunlink
        obtain ⟨rfl, rfl⟩ := Prod.mk.inj (Option.some.inj h)
        exact .unlinked pair c actor (unlinkTransaction_unlinked hunique hunlink)
          (unlinkTransaction_audit hunlink)
      · exact .same (.of_eq ((Prod.mk.inj (Option.some.inj h)).1 ▸ rfl))
  | del pair c => exact .same (.of_eq ((Prod.mk.inj (Option.some.inj h)).1 ▸ rfl))
  | _ => exact absurd h (by simp [UnlinkState.step])

theorem list_auditEffect {s s' : ListState} {stores : Stores} {order : List VendorIdentity}
    (h : s.step w.toStores order = some (stores, s')) :
    AuditEffect w { w with toStores := stores } := by
  have htable := list_step_identities h
  cases s with
  | get c actor =>
      simp only [ListState.step] at h
      split at h
      · exact .same (.of_eq ((Prod.mk.inj (Option.some.inj h)).1 ▸ rfl))
      · exact absurd h (by simp)
      · exact .same (.of_eq ((Prod.mk.inj (Option.some.inj h)).1 ▸ rfl))
  | select c actor =>
      simp only [ListState.step] at h
      split at h
      · exact .same (.of_eq ((Prod.mk.inj (Option.some.inj h)).1 ▸ rfl))
      · exact absurd h (by simp)
  | set c actor rows => exact .same (.of_eq ((Prod.mk.inj (Option.some.inj h)).1 ▸ rfl))
  | audit c actor rows =>
      obtain ⟨rfl, _⟩ := Prod.mk.inj (Option.some.inj h)
      exact .listed _ rfl htable rfl
  | finished c rows => exact absurd h (by simp [ListState.step])

theorem step_auditEffect {call call' : Call} {label : Label} (hunique : UniquePairs w.db)
    (h : Service.step deps w call label = some (w', call')) : AuditEffect w w' := by
  cases Service.step_cases h with
  | process hstep => exact .same (process_sameIdentityTables (ProcessState.step_cases hstep))
  | processFail hfail => exact .same ⟨rfl, rfl⟩
  | resolve k hstep => exact .same (.of_eq (ResolveState.step_db hstep))
  | link k hstep => exact link_auditEffect hstep
  | linkFail hfail => exact .same ⟨rfl, rfl⟩
  | unlink k hstep => exact unlink_auditEffect hunique hstep
  | unlinkFail hfail => exact .same ⟨rfl, rfl⟩
  | list hstep => exact list_auditEffect hstep
  | listFail hfail => exact .same ⟨rfl, rfl⟩

end

/-! ### Runs -/

/-- The log gives the mapping. -/
structure Replayed (db : Database) : Prop where
  unique : UniquePairs db
  replay_eq : ∀ pair, replay db.audit_log pair = mapping db pair

theorem AuditEffect.replayed {w w' : World} (h : AuditEffect w w') (hw : Replayed w.db) :
    Replayed w'.db := by
  cases h with
  | same h =>
      refine ⟨by rw [UniquePairs, h.user_identities]; exact hw.unique, fun pair => ?_⟩
      rw [h.audit_log, mapping_congr h.user_identities]
      exact hw.replay_eq pair
  | listed entry haction htable hlog =>
      refine ⟨by rw [UniquePairs, htable]; exact hw.unique, fun pair => ?_⟩
      rw [hlog, replay_append, replayEntry_list haction, mapping_congr htable]
      exact hw.replay_eq pair
  | linked p c actor htable hlog =>
      refine ⟨htable.unique hw.unique, fun pair => ?_⟩
      rw [hlog, replay_append]
      show Function.update (replay w.db.audit_log) p (some c) pair = _
      by_cases hp : pair = p
      · rw [hp, Function.update_self, htable.mapping_self]
      · rw [Function.update_of_ne hp, htable.mapping_other pair hp]
        exact hw.replay_eq pair
  | unlinked p c actor htable hlog =>
      refine ⟨htable.unique, fun pair => ?_⟩
      rw [hlog, replay_append]
      show Function.update (replay w.db.audit_log) p none pair = _
      by_cases hp : pair = p
      · rw [hp, Function.update_self, htable.mapping_self]
      · rw [Function.update_of_ne hp, htable.mapping_other pair hp]
        exact hw.replay_eq pair

/-- No mappings and no entries. -/
def NoHistory (w : World) : Prop := w.db.user_identities = [] ∧ w.db.audit_log = []

theorem replayed_of_reach {deps : Deps} {c : Service.Config}
    (h : ((Service.program deps).system NoHistory).Reach System.free c) : Replayed c.shared.db := by
  refine h.invariant (I := fun c => Replayed c.shared.db) (fun c hinit => ?_)
    fun c a c' hc _ hexec => ?_
  · obtain ⟨hidentities, hlog⟩ := hinit.1
    refine ⟨by rw [UniquePairs, hidentities]; exact List.nodup_nil, fun pair => ?_⟩
    rw [hlog, mapping, hidentities]
    rfl
  · obtain ⟨i, p, rfl, _, rfl⟩ | ⟨i, e, p, w, q, rfl, _, hstep, rfl⟩ | ⟨x, w, rfl, henv, rfl⟩ :=
      Program.exec_cases hexec
    · exact hc
    · exact (step_auditEffect hc.unique hstep).replayed hc
    · cases x with
      | expire key => exact Option.some.inj henv ▸ ⟨hc.unique, hc.replay_eq⟩
      | tick ms => exact Option.some.inj henv ▸ ⟨hc.unique, hc.replay_eq⟩

/-- The transaction of the call does not go through. -/
def Call.Fails (w : World) : Call → Prop
  | .link (.commit pair c actor) => linkTransaction w.db pair c actor = none
  | .unlink (.commit pair c actor) => unlinkTransaction w.db pair c actor = none
  | _ => False

theorem Call.Fails.unchanged {deps : Deps} {w w' : World} {call call' : Call} {label : Label}
    (hfails : call.Fails w) (h : Service.step deps w call label = some (w', call')) :
    SameIdentityTables w.db w'.db := by
  cases Service.step_cases h with
  | @link s s' stores k hstep =>
      cases s with
      | commit pair c actor =>
          have hnone : linkTransaction w.db pair c actor = none := hfails
          rw [LinkState.step, hnone] at hstep
          exact absurd hstep (by simp)
      | _ => exact hfails.elim
  | @unlink s s' stores k hstep =>
      cases s with
      | commit pair c actor =>
          have hnone : unlinkTransaction w.db pair c actor = none := hfails
          simp only [UnlinkState.step, hnone] at hstep
          exact .of_eq ((Prod.mk.inj (Option.some.inj hstep)).1 ▸ rfl)
      | _ => exact hfails.elim
  | linkFail hfail => exact ⟨rfl, rfl⟩
  | unlinkFail hfail => exact ⟨rfl, rfl⟩
  | _ => exact hfails.elim

/-- In every state of a run from empty tables, whatever calls are running beside
each other, the log gives the mapping; and a call whose transaction does not go
through leaves table and log alone. -/
theorem audit_log_determines_mapping {deps : Deps} {c : Service.Config}
    (h : ((Service.program deps).system NoHistory).Reach System.free c) :
    replay c.shared.db.audit_log = mapping c.shared.db ∧
      ∀ i call label c', c.threads i = some call → call.Fails c.shared →
        (Service.program deps).exec c (.step i label) = some c' →
          SameIdentityTables c.shared.db c'.shared.db := by
  refine ⟨funext (replayed_of_reach h).replay_eq, fun i call label c' hi hfails hexec => ?_⟩
  obtain ⟨_, _, hspawn, _, _⟩ | ⟨j, e, p, w, q, hact, hj, hstep, rfl⟩ | ⟨_, _, henv, _, _⟩ :=
    Program.exec_cases hexec
  · exact absurd hspawn (by simp)
  · obtain ⟨rfl, rfl⟩ := Action.step.inj hact
    obtain rfl := Option.some.inj (hi.symm.trans hj)
    exact hfails.unchanged hstep
  · exact absurd henv (by simp)

/-! ### A relinked pair -/

def linkedTwice : Vendor × String := (.swingmetric, "demo-player-2")

/-- Two links of a pair to different users, an unlink from the first of them,
which is not found, and a listing of the second. -/
def twoLinksActions : List Service.Action :=
  [.spawn 0 (.link (.commit linkedTwice "golfer-1" "internal-api")),
    .spawn 1 (.link (.commit linkedTwice "golfer-2" "internal-api")),
    .step 0 (.ok 0), .step 1 (.ok 0),
    .spawn 2 (.unlink (.commit linkedTwice "golfer-1" "internal-api")), .step 2 (.ok 0),
    .spawn 3 (.list (.audit "golfer-2" "internal-api" [])), .step 3 (.order [])]

def afterTwoLinks : Service.Config :=
  (((Service.program ⟨id, fun _ => none⟩).system NoHistory).execAll Service.noCalls
    twoLinksActions).getD Service.noCalls

theorem replay_afterTwoLinks :
    afterTwoLinks.shared.db.audit_log.length = 3 ∧
      mapping afterTwoLinks.shared.db linkedTwice = some "golfer-2" ∧
      replay afterTwoLinks.shared.db.audit_log linkedTwice = some "golfer-2" := by
  have hrun : ((Service.program ⟨id, fun _ => none⟩).system NoHistory).Run System.free
      Service.noCalls twoLinksActions afterTwoLinks :=
    System.run_of_isSome (fun _ _ _ => trivial) (by decide)
  have hreplay := (audit_log_determines_mapping
    ⟨Service.noCalls, twoLinksActions, ⟨⟨rfl, rfl⟩, fun _ => rfl⟩, hrun⟩).1
  have hmapping : mapping afterTwoLinks.shared.db linkedTwice = some "golfer-2" := by decide
  exact ⟨by decide, hmapping, (congrFun hreplay linkedTwice).trans hmapping⟩

end PureplayIngest
