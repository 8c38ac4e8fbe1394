import PureplayIngest.Identity.UserIdentities
import PureplayIngest.Service

/-!
What a step of the service does to one pair: to its row of
`user_identities`, to its entry of the resolve cache, and to the calls that
are working on it. The coherence arguments only look at this.
-/

namespace PureplayIngest

open Shared.Domain Shared.Kysely Identity Ingestion

/-- How far a link or an unlink of a pair has come. -/
inductive MutationPhase
  | started
  | committed
  | returned
  | rejected
  deriving DecidableEq

/-- The phase of a call that was rejected, before its commit or after it. -/
def rejectedPhase (committed : Bool) : MutationPhase := if committed then .committed else .rejected

namespace Call

/-- The phase of a call that is a link or an unlink of the pair. A link has
returned before its backfill runs. A call that is rejected for its DEL stays
committed, as its entries are never evicted. -/
def mutation (pair : Vendor × String) : Call → Option MutationPhase
  | .link (.commit p _ _) => if p = pair then some .started else none
  | .link (.del p _ _) => if p = pair then some .committed else none
  | .link (.backfill p _ _) => if p = pair then some .returned else none
  | .link (.finished p _ _ _) => if p = pair then some .returned else none
  | .link (.rejected p _ b) => if p = pair then some (rejectedPhase b) else none
  | .unlink (.commit p _ _) => if p = pair then some .started else none
  | .unlink (.del p _) => if p = pair then some .committed else none
  | .unlink (.finished p _) => if p = pair then some .returned else none
  | .unlink (.notFound p _) => if p = pair then some .rejected else none
  | .unlink (.rejected p _ b) => if p = pair then some (rejectedPhase b) else none
  | _ => none

/-- The resolve call that is running, on its own or inside an attempt. -/
def resolving : Call → Option ResolveState
  | .resolve s => some s
  | .process (.resolving _ s) => some s
  | _ => none

/-- The call has read `result` from the table and is about to cache it. -/
def Carries (pair : Vendor × String) (result : Option String) (call : Call) : Prop :=
  call.resolving = some (.set pair result)

end Call

/-- The entry of the resolve cache for a pair. -/
def Identity.Stores.cached (w : Stores) (pair : Vendor × String) : Option CacheValue :=
  w.redis (identityCacheKey pair.1 pair.2)

/-- What one step does to a pair. -/
inductive PairEffect (pair : Vendor × String) (w w' : World) (call call' : Call) : Prop
  | frame (hmapping : mapping w'.db pair = mapping w.db pair)
      (hcache : w'.cached pair = w.cached pair)
      (hcarry : ∀ r, call'.Carries pair r → r = mapping w.db pair)
      (hphase : call'.mutation pair = call.mutation pair ∨
        call.mutation pair = some .started ∧ call'.mutation pair = some .rejected)
  | fill (result : Option String) (hcarried : call.Carries pair result)
      (hmapping : mapping w'.db pair = mapping w.db pair)
      (hcache : w'.cached pair = some (.text (result.getD "")))
      (hcarry : ∀ r, ¬ call'.Carries pair r)
      (hphase : call.mutation pair = none ∧ call'.mutation pair = none)
  | commit (hbefore : call.mutation pair = some .started)
      (hafter : call'.mutation pair = some .committed)
      (hcache : w'.cached pair = w.cached pair)
      (hcarry : ∀ r, ¬ call'.Carries pair r)
  | evict (hbefore : call.mutation pair = some .committed)
      (hafter : call'.mutation pair = some .returned)
      (hmapping : mapping w'.db pair = mapping w.db pair)
      (hcache : w'.cached pair = none)
      (hcarry : ∀ r, ¬ call'.Carries pair r)

/-- What a step can turn the phase of a call into. -/
theorem PairEffect.phase {pair : Vendor × String} {w w' : World} {call call' : Call}
    (h : PairEffect pair w w' call call') :
    call'.mutation pair = call.mutation pair ∨
      (call.mutation pair = some .started ∧ call'.mutation pair = some .rejected) ∨
      (call.mutation pair = some .started ∧ call'.mutation pair = some .committed) ∨
      (call.mutation pair = some .committed ∧ call'.mutation pair = some .returned) := by
  cases h with
  | frame _ _ _ hphase => exact hphase.imp_right .inl
  | fill r _ _ _ _ hphase => exact .inl (hphase.2.trans hphase.1.symm)
  | commit hbefore hafter _ _ => exact .inr (.inr (.inl ⟨hbefore, hafter⟩))
  | evict hbefore hafter _ _ _ => exact .inr (.inr (.inr ⟨hbefore, hafter⟩))

/-! ### Calls that start -/

theorem Call.Initial.mutation {call : Call} (h : call.Initial) (pair : Vendor × String) :
    call.mutation pair = none ∨ call.mutation pair = some .started := by
  cases h with
  | process job => exact .inl rfl
  | resolve p => exact .inl rfl
  | link p c actor => by_cases hp : p = pair <;> simp [Call.mutation, hp]
  | unlink p c actor => by_cases hp : p = pair <;> simp [Call.mutation, hp]
  | list c actor => exact .inl rfl

theorem Call.Initial.not_carries {call : Call} (h : call.Initial) (pair : Vendor × String)
    (r : Option String) : ¬ call.Carries pair r := by
  cases h with
  | process job =>
      by_cases hskew : hasExcessiveClockSkew job.normalisedShot.captured_at_utc job.receivedAtUtc
      · simp [Call.Carries, Call.resolving, Ingestion.process, hskew]
      · simp [Call.Carries, Call.resolving, Ingestion.process, hskew, resolveCanonicalUserId]
  | resolve p => simp [Call.Carries, Call.resolving]
  | link p c actor => simp [Call.Carries, Call.resolving]
  | unlink p c actor => simp [Call.Carries, Call.resolving]
  | list c actor => simp [Call.Carries, Call.resolving]

/-! ### Redis writes, at the key of a pair -/

namespace Identity

theorem Redis.set_identity (redis : Redis) (pair pair' : Vendor × String) (value : CacheValue) :
    (redis.set (identityCacheKey pair'.1 pair'.2) value) (identityCacheKey pair.1 pair.2) =
      if pair = pair' then some value else redis (identityCacheKey pair.1 pair.2) := by
  unfold Redis.set
  by_cases h : pair = pair'
  · rw [if_pos h, h, Function.update_self]
  · rw [if_neg h, Function.update_of_ne fun hkey => h (identityCacheKey_inj.mp hkey)]

theorem Redis.set_list_identity (redis : Redis) (pair : Vendor × String) (c : String)
    (value : CacheValue) :
    (redis.set (identityListCacheKey c) value) (identityCacheKey pair.1 pair.2) =
      redis (identityCacheKey pair.1 pair.2) := by
  rw [Redis.set, Function.update_of_ne (listKey_ne_identityKey c pair).symm]

theorem Redis.evict_identity (redis : Redis) (pair pair' : Vendor × String) (c : String) :
    (redis.evict pair' c) (identityCacheKey pair.1 pair.2) =
      if pair = pair' then none else redis (identityCacheKey pair.1 pair.2) := by
  have hkeys : identityCacheKey pair.1 pair.2 ∈
      [identityCacheKey pair'.1 pair'.2, identityListCacheKey c] ↔ pair = pair' := by
    simp only [List.mem_cons, List.not_mem_nil, or_false, identityCacheKey_inj,
      (listKey_ne_identityKey c pair).symm]
  simp only [Redis.evict, Redis.del, hkeys]

end Identity

/-! ### Step by step -/

section

variable {pair : Vendor × String} {w w' : World}

/-- The steps of a resolve call, wherever the call is running. -/
theorem resolve_effect {s s' : ResolveState} {stores : Stores} {call call' : Call}
    (h : s.step w.toStores = some (stores, s')) (hw : w'.toStores = stores)
    (hcall : call.resolving = some s)
    (hcall' : call'.resolving = some s' ∨ ∃ p r, s' = .returned p r ∧ call'.resolving = none)
    (hphase : call.mutation pair = none ∧ call'.mutation pair = none) :
    PairEffect pair w w' call call' := by
  -- Only a call about to write the cache carries a mapping.
  have hset (p : Vendor × String) (r : Option String) (hs : s' ≠ .set p r) :
      ¬ call'.Carries p r := by
    intro hcarry
    rcases hcall' with h' | ⟨_, _, _, h'⟩
    · exact hs (Option.some.inj (h'.symm.trans hcarry))
    · simp [Call.Carries, h'] at hcarry
  have hphase' : call'.mutation pair = call.mutation pair := hphase.2.trans hphase.1.symm
  cases s with
  | get p =>
      have hframe : stores = w.toStores ∧ ∀ r, s' ≠ .set pair r := by
        simp only [ResolveState.step] at h
        split at h
        · obtain ⟨rfl, rfl⟩ := Prod.mk.inj (Option.some.inj h)
          exact ⟨rfl, by simp⟩
        · exact absurd h (by simp)
        · obtain ⟨rfl, rfl⟩ := Prod.mk.inj (Option.some.inj h)
          exact ⟨rfl, by simp⟩
      refine .frame ?_ ?_ (fun r hr => absurd hr (hset _ _ (hframe.2 r))) (.inl hphase')
      · rw [hw, hframe.1]
      · rw [Stores.cached, hw, hframe.1, Stores.cached]
  | select p =>
      obtain ⟨rfl, rfl⟩ := Prod.mk.inj (Option.some.inj h)
      refine .frame (by rw [hw]) (by rw [Stores.cached, hw, Stores.cached]) ?_ (.inl hphase')
      intro r hr
      rcases hcall' with h' | ⟨_, _, h', _⟩
      · rw [Call.Carries, h'] at hr
        obtain ⟨rfl, rfl⟩ : p = pair ∧ mapping w.db p = r := by simpa using hr
        rfl
      · exact absurd h' (by simp)
  | set p r =>
      obtain ⟨rfl, rfl⟩ := Prod.mk.inj (Option.some.inj h)
      by_cases hp : pair = p
      · subst p
        refine .fill r hcall (by rw [hw]) ?_ (fun r' => hset _ _ (by simp)) hphase
        rw [Stores.cached, hw]
        exact (Redis.set_identity _ _ _ _).trans (if_pos rfl)
      · refine .frame (by rw [hw]) ?_ (fun r' hr => absurd hr (hset _ _ (by simp))) (.inl hphase')
        rw [Stores.cached, hw]
        exact (Redis.set_identity _ _ _ _).trans (if_neg hp)
  | returned p r => exact absurd h (by simp [ResolveState.step])

/-- A step that touches neither the table of identities nor Redis, of a call
that neither resolves nor links. -/
theorem frame_effect {call call' : Call} (hdb : w'.db.user_identities = w.db.user_identities)
    (hredis : w'.redis = w.redis) (hcall' : call'.resolving = none)
    (hphase : call'.mutation pair = call.mutation pair ∨
      call.mutation pair = some .started ∧ call'.mutation pair = some .rejected) :
    PairEffect pair w w' call call' :=
  .frame (by rw [mapping, mapping, hdb]) (by rw [Stores.cached, Stores.cached, hredis])
    (fun r hr => by simp [Call.Carries, hcall'] at hr) hphase

theorem link_effect {s s' : LinkState} {stores : Stores}
    (h : s.step w.toStores = some (stores, s')) :
    PairEffect pair w { w with toStores := stores } (.link s) (.link s') := by
  have hcarry : ∀ r, ¬ Call.Carries pair r (.link s') := by simp [Call.Carries, Call.resolving]
  cases s with
  | commit p c actor =>
      simp only [LinkState.step, Option.map_eq_some_iff] at h
      obtain ⟨⟨db, row⟩, hlink, heq⟩ := h
      obtain ⟨rfl, rfl⟩ := Prod.mk.inj heq
      by_cases hp : p = pair
      · subst p
        exact .commit (by simp [Call.mutation]) (by simp [Call.mutation]) rfl hcarry
      · exact .frame ((linkTransaction_linked hlink).mapping_other pair (Ne.symm hp)) rfl
          (fun r hr => absurd hr (hcarry r)) (.inl (by simp [Call.mutation, hp]))
  | del p c row =>
      obtain ⟨rfl, rfl⟩ := Prod.mk.inj (Option.some.inj h)
      have hcache := Redis.evict_identity w.redis pair p c
      by_cases hp : p = pair
      · subst p
        exact .evict (by simp [Call.mutation]) (by simp [Call.mutation]) rfl
          (hcache.trans (if_pos rfl)) hcarry
      · exact .frame rfl (hcache.trans (if_neg (Ne.symm hp))) (fun r hr => absurd hr (hcarry r))
          (.inl (by simp [Call.mutation, hp]))
  | backfill p c row =>
      obtain ⟨rfl, rfl⟩ := Prod.mk.inj (Option.some.inj h)
      exact frame_effect rfl rfl rfl (.inl (by simp [Call.mutation]))
  | _ => exact absurd h (by simp [LinkState.step])

/-- A call that is rejected changes nothing; its phase tells whether it had committed. -/
theorem link_fail_effect {s s' : LinkState} (h : s.fail = some s') :
    PairEffect pair w w (.link s) (.link s') := by
  cases s with
  | commit p c actor =>
      obtain rfl := Option.some.inj h
      refine frame_effect rfl rfl rfl ?_
      by_cases hp : p = pair
      · exact .inr (by simp [Call.mutation, rejectedPhase, hp])
      · exact .inl (by simp [Call.mutation, hp])
  | del p c row =>
      obtain rfl := Option.some.inj h
      exact frame_effect rfl rfl rfl (.inl rfl)
  | backfill p c row =>
      obtain rfl := Option.some.inj h
      exact frame_effect rfl rfl rfl (.inl rfl)
  | _ => exact absurd h (by simp [LinkState.fail])

theorem unlink_fail_effect {s s' : UnlinkState} (h : s.fail = some s') :
    PairEffect pair w w (.unlink s) (.unlink s') := by
  cases s with
  | commit p c actor =>
      obtain rfl := Option.some.inj h
      refine frame_effect rfl rfl rfl ?_
      by_cases hp : p = pair
      · exact .inr (by simp [Call.mutation, rejectedPhase, hp])
      · exact .inl (by simp [Call.mutation, hp])
  | del p c =>
      obtain rfl := Option.some.inj h
      exact frame_effect rfl rfl rfl (.inl rfl)
  | _ => exact absurd h (by simp [UnlinkState.fail])

theorem unlink_effect {s s' : UnlinkState} {stores : Stores} (hunique : UniquePairs w.db)
    (h : s.step w.toStores = some (stores, s')) :
    PairEffect pair w { w with toStores := stores } (.unlink s) (.unlink s') := by
  have hcarry : ∀ r, ¬ Call.Carries pair r (.unlink s') := by simp [Call.Carries, Call.resolving]
  cases s with
  | commit p c actor =>
      simp only [UnlinkState.step] at h
      split at h
      · rename_i db hunlink
        obtain ⟨rfl, rfl⟩ := Prod.mk.inj (Option.some.inj h)
        by_cases hp : p = pair
        · subst p
          exact .commit (by simp [Call.mutation]) (by simp [Call.mutation]) rfl hcarry
        · exact .frame
            ((unlinkTransaction_unlinked hunique hunlink).mapping_other pair (Ne.symm hp)) rfl
            (fun r hr => absurd hr (hcarry r)) (.inl (by simp [Call.mutation, hp]))
      · obtain ⟨rfl, rfl⟩ := Prod.mk.inj (Option.some.inj h)
        refine frame_effect rfl rfl rfl ?_
        by_cases hp : p = pair
        · exact .inr (by simp [Call.mutation, hp])
        · exact .inl (by simp [Call.mutation, hp])
  | del p c =>
      obtain ⟨rfl, rfl⟩ := Prod.mk.inj (Option.some.inj h)
      have hcache := Redis.evict_identity w.redis pair p c
      by_cases hp : p = pair
      · subst p
        exact .evict (by simp [Call.mutation]) (by simp [Call.mutation]) rfl
          (hcache.trans (if_pos rfl)) hcarry
      · exact .frame rfl (hcache.trans (if_neg (Ne.symm hp))) (fun r hr => absurd hr (hcarry r))
          (.inl (by simp [Call.mutation, hp]))
  | _ => exact absurd h (by simp [UnlinkState.step])

theorem list_effect {s s' : ListState} {stores : Stores} {order : List VendorIdentity}
    (h : s.step w.toStores order = some (stores, s')) :
    PairEffect pair w { w with toStores := stores } (.list s) (.list s') := by
  cases s with
  | get c actor =>
      simp only [ListState.step] at h
      split at h
      · obtain ⟨rfl, rfl⟩ := Prod.mk.inj (Option.some.inj h)
        exact frame_effect rfl rfl rfl (.inl rfl)
      · exact absurd h (by simp)
      · obtain ⟨rfl, rfl⟩ := Prod.mk.inj (Option.some.inj h)
        exact frame_effect rfl rfl rfl (.inl rfl)
  | select c actor =>
      simp only [ListState.step] at h
      split at h
      · obtain ⟨rfl, rfl⟩ := Prod.mk.inj (Option.some.inj h)
        exact frame_effect rfl rfl rfl (.inl rfl)
      · exact absurd h (by simp)
  | set c actor rows =>
      obtain ⟨rfl, rfl⟩ := Prod.mk.inj (Option.some.inj h)
      exact .frame rfl (Redis.set_list_identity w.redis pair c (.identities rows))
        (fun r hr => by simp [Call.Carries, Call.resolving] at hr) (.inl rfl)
  | audit c actor rows =>
      obtain ⟨rfl, rfl⟩ := Prod.mk.inj (Option.some.inj h)
      exact frame_effect rfl rfl rfl (.inl rfl)
  | finished c rows => exact absurd h (by simp [ListState.step])

/-- Mappings and audit log are as before. -/
structure SameIdentityTables (db db' : Database) : Prop where
  user_identities : db'.user_identities = db.user_identities
  audit_log : db'.audit_log = db.audit_log

theorem upsertIfNew_sameIdentityTables {db db' : Database} {shot : NormalisedShot}
    {result : UpsertResult} (h : upsertIfNew db shot = some (db', result)) :
    SameIdentityTables db db' := by
  obtain ⟨_, hcases⟩ := upsertIfNew_cases h
  cases hcases with
  | duplicate existing mem key eq => rw [eq]; exact ⟨rfl, rfl⟩
  | inserted fresh id eq => rw [eq]; exact ⟨rfl, rfl⟩

/-- No step of an attempt touches these tables. -/
theorem process_sameIdentityTables {deps : Deps} {s s' : ProcessState} {k : ℕ}
    (h : ProcessStep deps w k s w' s') : SameIdentityTables w.db w'.db := by
  cases h with
  | resolving job hcall => rw [ResolveState.step_db hcall]; exact ⟨rfl, rfl⟩
  | duplicate job hupsert => exact upsertIfNew_sameIdentityTables hupsert
  | inserted job hupsert => exact upsertIfNew_sameIdentityTables hupsert
  | _ => exact ⟨rfl, rfl⟩

/-- Outside of its resolve call an attempt touches neither the table of
identities nor Redis. -/
theorem process_effect {deps : Deps} {s s' : ProcessState} {k : ℕ}
    (h : ProcessStep deps w k s w' s') : PairEffect pair w w' (.process s) (.process s') := by
  have htable := (process_sameIdentityTables h).user_identities
  cases h with
  | resolving job hcall =>
      rename_i call₁ call₂ stores
      refine resolve_effect hcall rfl rfl ?_ ⟨rfl, ?_⟩
      · cases call₂ with
        | returned p r => exact .inr ⟨p, r, rfl, rfl⟩
        | get p => exact .inl rfl
        | select p => exact .inl rfl
        | set p r => exact .inl rfl
      · cases call₂ <;> rfl
  | _ => exact frame_effect htable rfl rfl (.inl rfl)

theorem process_fail_effect {s s' : ProcessState} (h : s.fail = some s') :
    PairEffect pair w w (.process s) (.process s') := by
  obtain ⟨job, rfl⟩ := ProcessState.fail_cases h
  exact frame_effect rfl rfl rfl (.inl rfl)

/-- Every step of the service is one of the four effects on a given pair. -/
theorem step_effect {deps : Deps} {call call' : Call} {label : Label}
    (hunique : UniquePairs w.db) (h : Service.step deps w call label = some (w', call')) :
    PairEffect pair w w' call call' := by
  cases Service.step_cases h with
  | process hstep => exact process_effect (ProcessState.step_cases hstep)
  | processFail hfail => exact process_fail_effect hfail
  | resolve k hstep => exact resolve_effect hstep rfl rfl (.inl rfl) ⟨rfl, rfl⟩
  | link k hstep => exact link_effect hstep
  | linkFail hfail => exact link_fail_effect hfail
  | unlink k hstep => exact unlink_effect hunique hstep
  | unlinkFail hfail => exact unlink_fail_effect hfail
  | list hstep => exact list_effect hstep
  | listFail hfail => exact frame_effect rfl rfl rfl (.inl rfl)

/-! ### The table of identities -/

/-- What one step does to `user_identities`. -/
inductive TableEffect (w w' : World) (call call' : Call) : Prop
  | same (h : w'.db.user_identities = w.db.user_identities)
  | linked (p : Vendor × String) (c actor : String) (row : VendorIdentity)
      (hcall : call = .link (.commit p c actor)) (hcall' : call' = .link (.del p c row))
      (h : Linked w.db w'.db p c) (hredis : w'.redis = w.redis)
  | unlinked (p : Vendor × String) (c actor : String)
      (hcall : call = .unlink (.commit p c actor)) (hcall' : call' = .unlink (.del p c))
      (h : Unlinked w.db w'.db p c) (hredis : w'.redis = w.redis)

theorem list_step_identities {s s' : ListState} {stores stores' : Stores}
    {order : List VendorIdentity} (h : s.step stores order = some (stores', s')) :
    stores'.db.user_identities = stores.db.user_identities := by
  cases s with
  | get c actor =>
      simp only [ListState.step] at h
      split at h
      · exact (Prod.mk.inj (Option.some.inj h)).1 ▸ rfl
      · exact absurd h (by simp)
      · exact (Prod.mk.inj (Option.some.inj h)).1 ▸ rfl
  | select c actor =>
      simp only [ListState.step] at h
      split at h
      · exact (Prod.mk.inj (Option.some.inj h)).1 ▸ rfl
      · exact absurd h (by simp)
  | set c actor rows => exact (Prod.mk.inj (Option.some.inj h)).1 ▸ rfl
  | audit c actor rows => exact (Prod.mk.inj (Option.some.inj h)).1 ▸ rfl
  | finished c rows => exact absurd h (by simp [ListState.step])

theorem step_table {deps : Deps} {call call' : Call} {label : Label} (hunique : UniquePairs w.db)
    (h : Service.step deps w call label = some (w', call')) : TableEffect w w' call call' := by
  cases Service.step_cases h with
  | process hstep =>
      exact .same (process_sameIdentityTables (ProcessState.step_cases hstep)).user_identities
  | processFail hfail => exact .same rfl
  | resolve k hstep => exact .same (congrArg Database.user_identities (ResolveState.step_db hstep))
  | linkFail hfail => exact .same rfl
  | unlinkFail hfail => exact .same rfl
  | listFail hfail => exact .same rfl
  | list hstep => exact .same (list_step_identities hstep)
  | @link s s' stores k hstep =>
      cases s with
      | commit p c actor =>
          obtain ⟨⟨db, row⟩, hlink, heq⟩ := Option.map_eq_some_iff.mp hstep
          obtain ⟨rfl, rfl⟩ := Prod.mk.inj heq
          exact .linked p c actor row rfl rfl (linkTransaction_linked hlink) rfl
      | del p c row =>
          obtain ⟨rfl, rfl⟩ := Prod.mk.inj (Option.some.inj hstep)
          exact .same rfl
      | backfill p c row =>
          obtain ⟨rfl, rfl⟩ := Prod.mk.inj (Option.some.inj hstep)
          exact .same rfl
      | _ => exact absurd hstep (by simp [LinkState.step])
  | @unlink s s' stores k hstep =>
      cases s with
      | commit p c actor =>
          simp only [UnlinkState.step] at hstep
          split at hstep
          · rename_i db hunlink
            obtain ⟨rfl, rfl⟩ := Prod.mk.inj (Option.some.inj hstep)
            exact .unlinked p c actor rfl rfl (unlinkTransaction_unlinked hunique hunlink) rfl
          · obtain ⟨rfl, rfl⟩ := Prod.mk.inj (Option.some.inj hstep)
            exact .same rfl
      | del p c =>
          obtain ⟨rfl, rfl⟩ := Prod.mk.inj (Option.some.inj hstep)
          exact .same rfl
      | _ => exact absurd hstep (by simp [UnlinkState.step])

theorem mapping_congr {db db' : Database} (h : db'.user_identities = db.user_identities)
    (pair : Vendor × String) : mapping db' pair = mapping db pair := by
  rw [mapping, mapping, h]

theorem TableEffect.unique {call call' : Call} (h : TableEffect w w' call call')
    (hunique : UniquePairs w.db) : UniquePairs w'.db := by
  cases h with
  | same h => rw [UniquePairs, h]; exact hunique
  | linked p c actor row _ _ h _ => exact h.unique hunique
  | unlinked p c actor _ _ h _ => exact h.unique

/-- No step but a link to the empty string maps a pair to it. -/
theorem TableEffect.nonEmpty {call call' : Call} (h : TableEffect w w' call call')
    (hnonEmpty : NonEmptyUsers w.db) (hlink : ∀ p actor, call ≠ .link (.commit p "" actor)) :
    NonEmptyUsers w'.db := by
  intro pair
  cases h with
  | same h => rw [mapping_congr h]; exact hnonEmpty pair
  | linked p c actor row hcall _ h _ =>
      by_cases hp : pair = p
      · rw [hp, h.mapping_self]
        rintro hc
        obtain rfl := Option.some.inj hc
        exact hlink p actor hcall
      · rw [h.mapping_other pair hp]
        exact hnonEmpty pair
  | unlinked p c actor _ _ h _ =>
      by_cases hp : pair = p
      · rw [hp, h.mapping_self]
        simp
      · rw [h.mapping_other pair hp]
        exact hnonEmpty pair

end

/-! ### The environment -/

theorem event_identities {w w' : World} {x : Event} (hevent : Service.event w x = some w') :
    w'.db.user_identities = w.db.user_identities := by
  cases x with
  | expire key => exact Option.some.inj hevent ▸ rfl
  | tick ms => exact Option.some.inj hevent ▸ rfl

theorem event_cached {pair : Vendor × String} {w w' : World} {x : Event} {value : CacheValue}
    (hevent : Service.event w x = some w') (h : w'.cached pair = some value) :
    w.cached pair = some value := by
  cases x with
  | expire key =>
      obtain rfl := Option.some.inj hevent
      by_cases hkey : identityCacheKey pair.1 pair.2 = key
      · simp [Stores.cached, Redis.del, hkey] at h
      · simpa [Stores.cached, Redis.del, hkey] using h
  | tick ms =>
      obtain rfl := Option.some.inj hevent
      exact h

end PureplayIngest
