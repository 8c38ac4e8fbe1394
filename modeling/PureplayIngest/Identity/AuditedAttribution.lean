import PureplayIngest.Identity.AuditReplay
import PureplayIngest.Identity.Backfill
import PureplayIngest.Identity.ListCoherence

/-!
No shot is ever attributed to a user without a link in the audit log.

The user of a row comes from an attempt that has resolved it or from a
backfill, that of a resolution from the table or from the cache, and what is in
the cache was in the table at some time. The table changes only together with
the log, and the log only grows: so whatever names a user for a vendor user, at
whatever age, has an entry that says who linked the two.
-/

namespace PureplayIngest

open Shared.Domain Shared.Kysely Identity Ingestion Lib Service Webhooks

/-- The log has a link of the vendor user to the canonical user. -/
def Audited (log : List AuditEntry) (pair : Vendor × String) (user : String) : Prop :=
  ∃ entry ∈ log, entry.action = .identityLink ∧ entry.vendor = some pair.1 ∧
    entry.vendor_user_id = some pair.2 ∧ entry.canonical_user_id = some user

/-- What a list call has got for its user, or has returned. -/
def Call.Lists (user : String) (rows : List VendorIdentity) : Call → Prop
  | .list (.set u _ rs) => u = user ∧ rs = rows
  | .list (.audit u _ rs) => u = user ∧ rs = rows
  | .list (.finished u rs) => u = user ∧ rs = rows
  | _ => False

/-- The pair and the user of a link that has committed. -/
def Call.committedLink : Call → Option ((Vendor × String) × String)
  | .link (.del pair user _) => some (pair, user)
  | .link (.backfill pair user _) => some (pair, user)
  | _ => none

/-- All that is stored about users has its entry in the log. -/
structure AuditedWorld (w : World) : Prop where
  replayed : Replayed w.db
  shots : ∀ row ∈ w.db.shots, ∀ user, row.canonical_user_id = some user →
    Audited w.db.audit_log (shotPair row.toShotWithoutPayload) user
  events : ∀ event ∈ w.db.outbox_events, ∀ user, event.payload.canonical_user_id = some user →
    Audited w.db.audit_log (shotPair event.payload) user
  texts : ∀ pair user, w.cached pair = some (.text user) → user ≠ "" →
    Audited w.db.audit_log pair user
  lists : ∀ user rows, w.cachedList user = some (.identities rows) → ∀ row ∈ rows,
    row.canonical_user_id = user ∧ Audited w.db.audit_log (pairOf row) user

/-- So has all that a call holds. -/
structure AuditedCall (log : List AuditEntry) (call : Call) : Prop where
  own : call.OwnPair
  carried : ∀ pair user, call.Carries pair (some user) → Audited log pair user
  resolved : ∀ pair user, call.Resolved pair (some user) → Audited log pair user
  linked : ∀ pair user, call.committedLink = some (pair, user) → Audited log pair user
  lists : ∀ user rows, call.Lists user rows → ∀ row ∈ rows,
    row.canonical_user_id = user ∧ Audited log (pairOf row) user

/-! ### The log -/

section

variable {log more : List AuditEntry} {pair : Vendor × String} {user : String} {db : Database}

theorem Audited.append (h : Audited log pair user) : Audited (log ++ more) pair user := by
  obtain ⟨entry, hentry, hlink⟩ := h
  exact ⟨entry, List.mem_append_left _ hentry, hlink⟩

/-- An entry changes what the log says of a pair by linking or unlinking it. -/
theorem replayEntry_cases (users : Vendor × String → Option String) (entry : AuditEntry)
    (pair : Vendor × String) :
    replayEntry users entry pair = users pair ∨ replayEntry users entry pair = none ∨
      entry.action = .identityLink ∧ entry.vendor = some pair.1 ∧
        entry.vendor_user_id = some pair.2 ∧
        replayEntry users entry pair = entry.canonical_user_id := by
  obtain ⟨action, actor, canonical, vendor, vendorUserId, count, at'⟩ := entry
  cases vendor with
  | none => cases action <;> exact .inl rfl
  | some vendor =>
      cases vendorUserId with
      | none => cases action <;> exact .inl rfl
      | some vendorUserId =>
          by_cases hp : pair = (vendor, vendorUserId)
          · subst hp
            cases action with
            | identityLink => exact .inr (.inr ⟨rfl, rfl, rfl, Function.update_self ..⟩)
            | identityUnlink => exact .inr (.inl (Function.update_self ..))
            | identityList => exact .inl rfl
          · cases action with
            | identityList => exact .inl rfl
            | _ => exact .inl (Function.update_of_ne hp ..)

/-- What the replay of the log gives has a link in it. -/
theorem audited_of_replay (h : replay log pair = some user) : Audited log pair user := by
  induction log using List.reverseRecOn with
  | nil => exact absurd h (by simp [replay])
  | append_singleton log entry ih =>
      rw [replay_append] at h
      obtain hsame | hnone | ⟨haction, hvendor, hid, huser⟩ :=
        replayEntry_cases (replay log) entry pair
      · exact (ih (hsame.symm.trans h)).append
      · exact absurd (hnone.symm.trans h) (by simp)
      · exact ⟨entry, List.mem_append_right _ (List.mem_singleton_self _), haction, hvendor, hid,
          huser.symm.trans h⟩

theorem Replayed.audited (hdb : Replayed db) (h : mapping db pair = some user) :
    Audited db.audit_log pair user :=
  audited_of_replay ((hdb.replay_eq pair).trans h)

theorem Replayed.audited_row (hdb : Replayed db) {row : VendorIdentity}
    (hrow : row ∈ identitiesOf db user) :
    row.canonical_user_id = user ∧ Audited db.audit_log (pairOf row) user := by
  obtain ⟨hmem, huser⟩ := List.mem_filter.mp hrow
  have huser := of_decide_eq_true huser
  refine ⟨huser, hdb.audited ?_⟩
  rw [mapping_of_mem hdb.unique hmem, huser]

end

/-! ### What a step does -/

section

variable {deps : Deps} {w w' : World} {call call' : Call} {label : Label} {user : String}
  {rows : List VendorIdentity}

/-- The log grows. -/
theorem AuditEffect.log (h : AuditEffect w w') :
    ∃ more, w'.db.audit_log = w.db.audit_log ++ more := by
  cases h with
  | same hsame => exact ⟨[], by rw [hsame.audit_log, List.append_nil]⟩
  | listed entry _ _ hlog => exact ⟨_, hlog⟩
  | linked pair c actor _ hlog => exact ⟨_, hlog⟩
  | unlinked pair c actor _ hlog => exact ⟨_, hlog⟩

/-- A link that is to delete its entries and to backfill has committed. -/
theorem step_committedLink (h : Service.step deps w call label = some (w', call'))
    {pair : Vendor × String} (hlink : call'.committedLink = some (pair, user)) :
    call.committedLink = some (pair, user) ∨ mapping w'.db pair = some user := by
  cases Service.step_cases h with
  | @link s s' stores k hstep =>
      cases s with
      | commit p c actor =>
          obtain ⟨⟨db, row⟩, htransaction, heq⟩ := Option.map_eq_some_iff.mp hstep
          obtain ⟨rfl, rfl⟩ := Prod.mk.inj heq
          obtain ⟨rfl, rfl⟩ := Prod.mk.inj (Option.some.inj hlink)
          exact .inr (linkTransaction_linked htransaction).mapping_self
      | del p c row =>
          obtain ⟨rfl, rfl⟩ := Prod.mk.inj (Option.some.inj hstep)
          exact .inl hlink
      | backfill p c row =>
          obtain ⟨rfl, rfl⟩ := Prod.mk.inj (Option.some.inj hstep)
          exact absurd hlink (by simp [Call.committedLink])
      | _ => exact absurd hstep (by simp [LinkState.step])
  | @linkFail s s' hfail =>
      cases s <;> cases hfail <;> exact absurd hlink (by simp [Call.committedLink])
  | _ => exact absurd hlink (by simp [Call.committedLink])

/-- A list that is in the cache after a step was there before or had been read by the call. -/
theorem step_cachedList (h : Service.step deps w call label = some (w', call'))
    (hcached : w'.cachedList user = some (.identities rows)) :
    w.cachedList user = some (.identities rows) ∨ call.Lists user rows := by
  have hresolve {s s' : ResolveState} {stores : Stores}
      (hstep : s.step w.toStores = some (stores, s')) :
      stores.cachedList user = w.cachedList user := by
    cases s with
    | get p =>
        rw [ResolveState.step] at hstep
        split at hstep
        · exact (Prod.mk.inj (Option.some.inj hstep)).1 ▸ rfl
        · exact absurd hstep (by simp)
        · exact (Prod.mk.inj (Option.some.inj hstep)).1 ▸ rfl
    | select p => exact (Prod.mk.inj (Option.some.inj hstep)).1 ▸ rfl
    | set p r =>
        obtain ⟨rfl, _⟩ := Prod.mk.inj (Option.some.inj hstep)
        exact Redis.set_identity_list w.redis p user (.text (r.getD ""))
    | returned p r => exact absurd hstep (by simp [ResolveState.step])
  have hevict {pair : Vendor × String} {c : String}
      (hdel : (w.redis.evict pair c) (identityListCacheKey user) = some (.identities rows)) :
      w.cachedList user = some (.identities rows) := by
    rw [Redis.evict_list] at hdel
    split at hdel
    · exact absurd hdel (by simp)
    · exact hdel
  cases Service.step_cases h with
  | process hstep =>
      cases ProcessState.step_cases hstep with
      | resolving job hcall => exact .inl ((hresolve hcall).symm.trans hcached)
      | _ => exact .inl hcached
  | processFail hfail => exact .inl hcached
  | resolve k hstep => exact .inl ((hresolve hstep).symm.trans hcached)
  | @link s s' stores k hstep =>
      cases s with
      | commit p c actor =>
          obtain ⟨⟨db, row⟩, _, heq⟩ := Option.map_eq_some_iff.mp hstep
          obtain ⟨rfl, _⟩ := Prod.mk.inj heq
          exact .inl hcached
      | del p c row =>
          obtain ⟨rfl, _⟩ := Prod.mk.inj (Option.some.inj hstep)
          exact .inl (hevict hcached)
      | backfill p c row =>
          obtain ⟨rfl, _⟩ := Prod.mk.inj (Option.some.inj hstep)
          exact .inl hcached
      | _ => exact absurd hstep (by simp [LinkState.step])
  | linkFail hfail => exact .inl hcached
  | @unlink s s' stores k hstep =>
      cases s with
      | commit p c actor =>
          rw [UnlinkState.step] at hstep
          split at hstep
          · obtain ⟨rfl, _⟩ := Prod.mk.inj (Option.some.inj hstep)
            exact .inl hcached
          · obtain ⟨rfl, _⟩ := Prod.mk.inj (Option.some.inj hstep)
            exact .inl hcached
      | del p c =>
          obtain ⟨rfl, _⟩ := Prod.mk.inj (Option.some.inj hstep)
          exact .inl (hevict hcached)
      | _ => exact absurd hstep (by simp [UnlinkState.step])
  | unlinkFail hfail => exact .inl hcached
  | listFail hfail => exact .inl hcached
  | @list s s' stores order hstep =>
      cases s with
      | get u actor =>
          rw [ListState.step] at hstep
          split at hstep
          · exact .inl ((Prod.mk.inj (Option.some.inj hstep)).1 ▸ hcached)
          · exact absurd hstep (by simp)
          · exact .inl ((Prod.mk.inj (Option.some.inj hstep)).1 ▸ hcached)
      | select u actor =>
          rw [ListState.step] at hstep
          split at hstep
          · exact .inl ((Prod.mk.inj (Option.some.inj hstep)).1 ▸ hcached)
          · exact absurd hstep (by simp)
      | set u actor rs =>
          obtain ⟨rfl, _⟩ := Prod.mk.inj (Option.some.inj hstep)
          have hset := Redis.set_list w.redis user u (.identities rs)
          have hcached := hset.symm.trans hcached
          by_cases hu : user = u
          · rw [if_pos hu] at hcached
            exact .inr ⟨hu.symm, CacheValue.identities.inj (Option.some.inj hcached)⟩
          · rw [if_neg hu] at hcached
            exact .inl hcached
      | audit u actor rs =>
          obtain ⟨rfl, _⟩ := Prod.mk.inj (Option.some.inj hstep)
          exact .inl hcached
      | finished u rs => exact absurd hstep (by simp [ListState.step])

/-- The rows of a list call come from the cache or from the table. -/
theorem step_lists (h : Service.step deps w call label = some (w', call'))
    (hlists : call'.Lists user rows) :
    call.Lists user rows ∨ w.cachedList user = some (.identities rows) ∨
      rows.Perm (identitiesOf w.db user) := by
  cases Service.step_cases h with
  | @list s s' stores order hstep =>
      cases s with
      | get u actor =>
          rw [ListState.step] at hstep
          split at hstep
          · rename_i rs hcached
            obtain ⟨_, rfl⟩ := Prod.mk.inj (Option.some.inj hstep)
            obtain ⟨rfl, rfl⟩ := hlists
            exact .inr (.inl hcached)
          · exact absurd hstep (by simp)
          · obtain ⟨_, rfl⟩ := Prod.mk.inj (Option.some.inj hstep)
            exact hlists.elim
      | select u actor =>
          rw [ListState.step] at hstep
          split at hstep
          · rename_i hordered
            obtain ⟨_, rfl⟩ := Prod.mk.inj (Option.some.inj hstep)
            obtain ⟨rfl, rfl⟩ := hlists
            exact .inr (.inr hordered.1)
          · exact absurd hstep (by simp)
      | set u actor rs =>
          obtain ⟨_, rfl⟩ := Prod.mk.inj (Option.some.inj hstep)
          exact .inl hlists
      | audit u actor rs =>
          obtain ⟨_, rfl⟩ := Prod.mk.inj (Option.some.inj hstep)
          exact .inl hlists
      | finished u rs => exact absurd hstep (by simp [ListState.step])
  | @listFail s s' hfail =>
      cases s <;> cases hfail
      exact .inl hlists
  | _ => exact hlists.elim

/-- Where the user of a row comes from. -/
theorem step_rowUsers (h : Service.step deps w call label = some (w', call'))
    {row : NormalisedShot} (hrow : row ∈ w'.db.shots) (huser : row.canonical_user_id = some user) :
    (∃ old ∈ w.db.shots, shotPair old.toShotWithoutPayload = shotPair row.toShotWithoutPayload ∧
        old.canonical_user_id = some user) ∨
      call.Resolved (shotPair row.toShotWithoutPayload) (some user) ∨
      call.committedLink = some (shotPair row.toShotWithoutPayload, user) := by
  cases step_shotsEffect h with
  | frame hshots => exact .inl ⟨row, hshots ▸ hrow, rfl, huser⟩
  | insert job haccepted hkey hid hshots =>
      rw [hshots] at hrow
      obtain hrow | hrow := List.mem_append.mp hrow
      · exact .inl ⟨row, hrow, rfl, huser⟩
      · obtain rfl := List.mem_singleton.mp hrow
        exact .inr (.inl ⟨rfl, huser⟩)
  | flag job shot id origin hshots =>
      rw [hshots] at hrow
      obtain ⟨old, hold, rfl⟩ := List.mem_map.mp hrow
      by_cases hid : old.canonical_shot_id = shot.canonical_shot_id
      · rw [if_pos hid] at huser ⊢
        exact .inl ⟨old, hold, rfl, huser⟩
      · rw [if_neg hid] at huser ⊢
        exact .inl ⟨old, hold, rfl, huser⟩
  | backfill pair c identity hshots =>
      rw [hshots] at hrow
      obtain ⟨old, hold, rfl⟩ := List.mem_map.mp hrow
      by_cases hmatch : old.vendor = pair.1 ∧ old.vendor_user_id = pair.2 ∧
          old.canonical_user_id = none
      · rw [if_pos hmatch] at huser ⊢
        obtain rfl := Option.some.inj huser
        refine .inr (.inr ?_)
        rw [Call.committedLink, shotPair, hmatch.1, hmatch.2.1]
      · rw [if_neg hmatch] at huser ⊢
        exact .inl ⟨old, hold, rfl, huser⟩

theorem step_eventUsers (h : Service.step deps w call label = some (w', call'))
    {event : OutboxEvent} (hevent : event ∈ w'.db.outbox_events)
    (huser : event.payload.canonical_user_id = some user) :
    (∃ old ∈ w.db.outbox_events, shotPair old.payload = shotPair event.payload ∧
        old.payload.canonical_user_id = some user) ∨
      call.Resolved (shotPair event.payload) (some user) := by
  cases step_tablesEffect h with
  | frame hsame => exact .inl ⟨event, hsame.outbox_events ▸ hevent, rfl, huser⟩
  | insert job haccepted hkey hid hdb =>
      rw [hdb] at hevent
      obtain hevent | hevent := List.mem_append.mp hevent
      · exact .inl ⟨event, hevent, rfl, huser⟩
      · obtain rfl := List.mem_singleton.mp hevent
        exact .inr ⟨rfl, huser⟩
  | flag job shot id origin hdb =>
      rw [hdb] at hevent
      exact .inl ⟨event, hevent, rfl, huser⟩
  | backfill pair c row hdb =>
      rw [hdb] at hevent
      exact .inl ⟨event, hevent, rfl, huser⟩

theorem AuditedWorld.step (hinv : AuditedWorld w) (hcall : AuditedCall w.db.audit_log call)
    (h : Service.step deps w call label = some (w', call')) : AuditedWorld w' := by
  have haudit := step_auditEffect hinv.replayed.unique h
  obtain ⟨more, hlog⟩ := haudit.log
  refine ⟨haudit.replayed hinv.replayed, fun row hrow user huser => ?_,
    fun event hevent user huser => ?_, fun pair user hcached hne => ?_,
    fun user rows hcached row hrow => ?_⟩
  · rw [hlog]
    obtain ⟨old, hold, hpair, hbefore⟩ | hresolved | hlinked := step_rowUsers h hrow huser
    · exact hpair ▸ (hinv.shots old hold user hbefore).append
    · exact (hcall.resolved _ user hresolved).append
    · exact (hcall.linked _ user hlinked).append
  · rw [hlog]
    obtain ⟨old, hold, hpair, hbefore⟩ | hresolved := step_eventUsers h hevent huser
    · exact hpair ▸ (hinv.events old hold user hbefore).append
    · exact (hcall.resolved _ user hresolved).append
  · rw [hlog]
    have heffect : PairEffect pair w w' call call' := step_effect hinv.replayed.unique h
    cases heffect with
    | frame _ hcache _ _ => exact (hinv.texts pair user (hcache ▸ hcached) hne).append
    | fill result hcarried _ hcache _ _ =>
        rw [hcache] at hcached
        cases result with
        | none => exact absurd (CacheValue.text.inj (Option.some.inj hcached)).symm hne
        | some carried =>
            obtain rfl := CacheValue.text.inj (Option.some.inj hcached)
            exact (hcall.carried pair carried hcarried).append
    | commit _ _ hcache _ => exact (hinv.texts pair user (hcache ▸ hcached) hne).append
    | evict _ _ _ hcache _ => exact absurd (hcache.symm.trans hcached) (by simp)
  · rw [hlog]
    obtain hbefore | hlists := step_cachedList h hcached
    · exact (hinv.lists user rows hbefore row hrow).imp_right Audited.append
    · exact (hcall.lists user rows hlists row hrow).imp_right Audited.append

theorem AuditedCall.step (hcall : AuditedCall w.db.audit_log call) (hinv : AuditedWorld w)
    (h : Service.step deps w call label = some (w', call')) :
    AuditedCall w'.db.audit_log call' := by
  have haudit := step_auditEffect hinv.replayed.unique h
  obtain ⟨more, hlog⟩ := haudit.log
  refine ⟨step_ownPair h hcall.own, fun pair user hcarries => ?_, fun pair user hresolved => ?_,
    fun pair user hlink => ?_, fun user rows hlists row hrow => ?_⟩
  · rw [hlog]
    have heffect : PairEffect pair w w' call call' := step_effect hinv.replayed.unique h
    cases heffect with
    | frame _ _ hcarry _ => exact (hinv.replayed.audited (hcarry _ hcarries).symm).append
    | fill _ _ _ _ hcarry _ => exact absurd hcarries (hcarry _)
    | commit _ _ _ hcarry => exact absurd hcarries (hcarry _)
    | evict _ _ _ _ hcarry => exact absurd hcarries (hcarry _)
  · rw [hlog]
    cases step_resolved h hcall.own hresolved with
    | cached s _ hcached hs =>
        obtain ⟨hsome, hne⟩ := Option.filter_eq_some_iff.mp hs.symm
        obtain rfl := Option.some.inj hsome
        exact (hinv.texts pair s hcached (of_decide_eq_true hne)).append
    | selected hs => exact (hinv.replayed.audited hs.symm).append
    | kept before hbefore hs =>
        obtain ⟨rfl, _⟩ := Option.filter_eq_some_iff.mp hs.symm
        exact (hcall.resolved pair user hbefore).append
  · obtain hbefore | hmapping := step_committedLink h hlink
    · rw [hlog]
      exact (hcall.linked pair user hbefore).append
    · exact (haudit.replayed hinv.replayed).audited hmapping
  · rw [hlog]
    obtain hbefore | hcached | hperm := step_lists h hlists
    · exact (hcall.lists user rows hbefore row hrow).imp_right Audited.append
    · exact (hinv.lists user rows hcached row hrow).imp_right Audited.append
    · exact (hinv.replayed.audited_row (hperm.subset hrow)).imp_right Audited.append

theorem AuditedCall.append {log more : List AuditEntry} (h : AuditedCall log call) :
    AuditedCall (log ++ more) call where
  own := h.own
  carried pair user hc := (h.carried pair user hc).append
  resolved pair user hr := (h.resolved pair user hr).append
  linked pair user hl := (h.linked pair user hl).append
  lists user rows hl row hrow := (h.lists user rows hl row hrow).imp_right Audited.append

/-- A call that starts holds nothing. -/
theorem auditedCall_of_start {sha256 : String → String} {log : List AuditEntry} {i : ℕ}
    (hstart : StartsParsedJobs sha256 (.spawn i call)) : AuditedCall log call := by
  have hinitial := hstart.initial
  refine ⟨?_, fun pair user hr => absurd hr (hinitial.not_carries pair (some user)),
    fun pair user hr => absurd hr (hinitial.not_resolved pair (some user)), fun pair user hl => ?_,
    fun user rows hl => ?_⟩
  · cases call with
    | process s =>
        obtain ⟨job, rfl, hparsed⟩ := hstart
        rw [process]
        split
        · trivial
        · exact ⟨rfl, hparsed.fresh.canonical_user_id⟩
    | _ => trivial
  · cases hinitial <;> exact absurd hl (by simp [Call.committedLink])
  · cases hinitial <;> exact hl.elim

theorem AuditedWorld.event {x : Event} (hinv : AuditedWorld w)
    (hevent : Service.event w x = some w') :
    AuditedWorld w' ∧ w'.db.audit_log = w.db.audit_log := by
  cases x with
  | expire key =>
      obtain rfl := Option.some.inj hevent
      have hdel (k : String) {value : CacheValue} (hvalue : w.redis.del [key] k = some value) :
          w.redis k = some value := by
        rw [Redis.del] at hvalue
        split at hvalue
        · exact absurd hvalue (by simp)
        · exact hvalue
      exact ⟨⟨hinv.replayed, hinv.shots, hinv.events,
        fun pair user hcached => hinv.texts pair user (hdel _ hcached),
        fun user rows hcached => hinv.lists user rows (hdel _ hcached)⟩, rfl⟩
  | tick ms =>
      obtain rfl := Option.some.inj hevent
      exact ⟨⟨⟨hinv.replayed.unique, hinv.replayed.replay_eq⟩, hinv.shots, hinv.events, hinv.texts,
        hinv.lists⟩, rfl⟩

end

/-! ### Runs -/

/-- Nothing is stored, linked, logged or cached. -/
structure NothingKnown (w : World) : Prop where
  history : NoHistory w
  shots : w.db.shots = []
  outbox_events : w.db.outbox_events = []
  redis : w.redis = fun _ => none

def unknownSystem (deps : Deps) : System Service.Config Service.Action :=
  (Service.program deps).system NothingKnown

abbrev AttributionInv (c : Service.Config) : Prop :=
  Program.Inv AuditedWorld (fun _ w call => AuditedCall w.db.audit_log call) c

section

variable {deps : Deps} {c c' : Service.Config} {a : Service.Action}

theorem AttributionInv.step (hinv : AttributionInv c) (hstart : StartsParsedJobs deps.sha256 a)
    (hexec : (Service.program deps).exec c a = some c') : AttributionInv c' := by
  refine Program.Inv.step hinv hexec ?_ ?_ ?_
  · rintro i call rfl
    exact auditedCall_of_start hstart
  · rintro i label call w' call' rfl hi hstep
    have hcall := hinv.threads i call hi
    obtain ⟨more, hlog⟩ := (step_auditEffect hinv.shared.replayed.unique hstep).log
    refine ⟨hinv.shared.step hcall hstep, hcall.step hinv.shared hstep, fun j other _ hj => ?_⟩
    rw [hlog]
    exact (hinv.threads j other hj).append
  · rintro x w' rfl hevent
    obtain ⟨hworld, hlog⟩ := hinv.shared.event hevent
    refine ⟨hworld, fun j other hj => ?_⟩
    rw [hlog]
    exact hinv.threads j other hj

theorem attributionInv_of_reach
    (h : (unknownSystem deps).Reach (fun _ => StartsParsedJobs deps.sha256) c) :
    AttributionInv c := by
  refine h.invariant (fun c₀ h₀ => ?_) fun _ _ _ hinv hstart hexec => hinv.step hstart hexec
  obtain ⟨⟨⟨hidentities, hlog⟩, hshots, hevents, hredis⟩, hidle⟩ := h₀
  refine ⟨⟨⟨?_, fun pair => ?_⟩, fun row hrow => ?_, fun event hevent => ?_,
    fun pair user hcached => ?_, fun user rows hcached => ?_⟩,
    fun j p hj => absurd ((hidle j).symm.trans hj) (by simp)⟩
  · rw [UniquePairs, hidentities]
    exact List.nodup_nil
  · rw [hlog, mapping, hidentities]
    rfl
  · exact absurd (hshots ▸ hrow) List.not_mem_nil
  · exact absurd (hevents ▸ hevent) List.not_mem_nil
  · rw [Stores.cached, hredis] at hcached
    exact absurd hcached (by simp)
  · rw [Stores.cachedList, hredis] at hcached
    exact absurd hcached (by simp)

/-- In every run from an empty installation, whatever calls and attempts run
beside each other and however old what they have read is: the user of every row
and of every event, and all that a listing returns for a user, was linked to the
vendor user by a call that is in the audit log. -/
theorem attribution_audited
    (h : (unknownSystem deps).Reach (fun _ => StartsParsedJobs deps.sha256) c) :
    (∀ row ∈ c.shared.db.shots, ∀ user, row.canonical_user_id = some user →
        Audited c.shared.db.audit_log (shotPair row.toShotWithoutPayload) user) ∧
      (∀ event ∈ c.shared.db.outbox_events, ∀ user, event.payload.canonical_user_id = some user →
        Audited c.shared.db.audit_log (shotPair event.payload) user) ∧
      ∀ i user rows, c.threads i = some (.list (.finished user rows)) → ∀ row ∈ rows,
        row.canonical_user_id = user ∧ Audited c.shared.db.audit_log (pairOf row) user := by
  have hinv := attributionInv_of_reach h
  refine ⟨hinv.shared.shots, hinv.shared.events, fun i user rows hi row hrow => ?_⟩
  exact (hinv.threads i _ hi).lists user rows ⟨rfl, rfl⟩ row hrow

end

/-! ### A drive of a linked player -/

def drivePlayer : Vendor × String := (.trackpro, "demo-player-1")

/-- The link commits, and then the drive is ingested. -/
def linkedDriveActions : List Service.Action :=
  [.spawn 0 (.link (.commit drivePlayer "golfer-1" "internal-api")), .step 0 (.ok 0),
    .spawn 1 (.process (process (driveJob firstId firstDrive))), .step 1 (.ok 0), .step 1 (.ok 0),
    .step 1 (.ok 0), .step 1 (.ok 0), .step 1 (.ok 0)]

def afterLinkedDrive : Service.Config :=
  ((unknownSystem driveDeps).execAll noCalls linkedDriveActions).getD noCalls

theorem attribution_audited_drive :
    afterLinkedDrive.shared.db.shots.map (·.canonical_user_id) = [some "golfer-1"] ∧
      ∀ row ∈ afterLinkedDrive.shared.db.shots, ∀ user, row.canonical_user_id = some user →
        Audited afterLinkedDrive.shared.db.audit_log (shotPair row.toShotWithoutPayload) user := by
  have hstarts : ∀ a ∈ linkedDriveActions, StartsParsedJobs driveSha256 a := by
    simp only [linkedDriveActions, List.forall_mem_cons]
    refine ⟨.link _ _ _, trivial, startsParsedJobs_drive, ?_⟩
    simp [StartsParsedJobs]
  have hreach : (unknownSystem driveDeps).Reach (fun _ => StartsParsedJobs driveDeps.sha256)
      afterLinkedDrive :=
    ⟨noCalls, linkedDriveActions, ⟨⟨⟨rfl, rfl⟩, rfl, rfl, rfl⟩, fun _ => rfl⟩,
      System.run_of_isSome (fun a ha _ => hstarts a ha) (by decide +kernel)⟩
  exact ⟨by decide +kernel, (attribution_audited hreach).1⟩

end PureplayIngest
