import PureplayIngest.Identity.ResolveCoherence

/-!
Coherence of both caches when the identity calls follow one another.

Each link and unlink deletes the two entries it knows to be stale: that of
the pair, and the list of the canonical user named in the call. A link that
takes a pair away from another canonical user makes that user's list stale as
well, and nothing deletes it. Without such a link, or when that list is not
cached, every answer is what the table holds.
-/

namespace PureplayIngest

open Shared.Domain Shared.Kysely Identity Ingestion Lib Service

/-- The entry of the list cache for a canonical user. -/
def Identity.Stores.cachedList (w : Stores) (user : String) : Option CacheValue :=
  w.redis (identityListCacheKey user)

namespace Call

/-- The rows a list call has obtained, for which user. -/
def listing : Call → Option (String × List VendorIdentity)
  | .list (.set user _ rows) => some (user, rows)
  | .list (.audit user _ rows) => some (user, rows)
  | _ => none

/-- The user whose list a link or an unlink is about to delete, or has failed to. -/
def pendingList : Call → Option String
  | .link (.del _ user _) => some user
  | .link (.rejected _ user true) => some user
  | .unlink (.del _ user) => some user
  | .unlink (.rejected _ user true) => some user
  | _ => none

/-- The call has ended and is done with Redis. -/
def Settled : Call → Prop
  | .resolve (.returned _ _) => True
  | .link (.backfill _ _ _) => True
  | .link (.finished _ _ _ _) => True
  | .link (.rejected _ _ false) => True
  | .unlink (.finished _ _) => True
  | .unlink (.notFound _ _) => True
  | .unlink (.rejected _ _ false) => True
  | .list (.finished _ _) => True
  | _ => False

def IsProcess (call : Call) : Prop := ∃ s, call = .process s

/-- A call that has rows is a list call, and deletes no list. -/
theorem pendingList_of_listing {call : Call} {user : String} {rows : List VendorIdentity}
    (h : call.listing = some (user, rows)) : call.pendingList = none := by
  unfold listing at h
  split at h
  · rfl
  · rfl
  · exact absurd h (by simp)

theorem Settled.listing {call : Call} (h : call.Settled) : call.listing = none := by
  unfold Settled at h
  split at h <;> first | rfl | exact h.elim

theorem Settled.pendingList {call : Call} (h : call.Settled) : call.pendingList = none := by
  unfold Settled at h
  split at h <;> first | rfl | exact h.elim

theorem Settled.not_carries {call : Call} (h : call.Settled) (pair : Vendor × String)
    (r : Option String) : ¬ call.Carries pair r := by
  unfold Settled at h
  split at h <;> first | (exact h.elim) | simp [Carries, resolving]

end Call

/-- Identity calls one after the other: a call starts when all that were
started before are done. -/
def Sequential (c : Config) : Action → Prop
  | .spawn _ call => ¬ call.IsProcess ∧ ∀ j other, c.threads j = some other → other.Settled
  | _ => True

/-- No link takes a pair away from a canonical user whose list is cached. -/
def NoCachedRelink (c : Config) (a : Action) : Prop :=
  ∀ i label pair user actor old, a = .step i label →
    c.threads i = some (.link (.commit pair user actor)) → mapping c.shared.db pair = some old →
    old ≠ user → c.shared.cachedList old = none

/-- Both caches agree with the table. -/
structure CoherentStores (w : Stores) : Prop where
  resolve : ∀ pair s, w.cached pair = some (.text s) → s = (mapping w.db pair).getD ""
  list : ∀ user rows, w.cachedList user = some (.identities rows) →
    rows.Perm (identitiesOf w.db user)

/-- The runs of the service from coherent caches. -/
def coherentSystem (deps : Deps) : System Config Action :=
  (program deps).system fun w =>
    (UniquePairs w.db ∧ NonEmptyUsers w.db) ∧ CoherentStores w.toStores

theorem coherentSystem_exec (deps : Deps) : (coherentSystem deps).exec = (program deps).exec := rfl

/-! ### What a step does to one list -/

inductive ListEffect (user : String) (w w' : World) (call call' : Call) : Prop
  | frame (hrows : identitiesOf w'.db user = identitiesOf w.db user)
      (hcache : w'.cachedList user = w.cachedList user)
      (hlisting : ∀ rows, call'.listing = some (user, rows) →
        call.listing = some (user, rows) ∨ w.cachedList user = some (.identities rows) ∨
          rows.Perm (identitiesOf w.db user))
      (hpending : call.pendingList = some user → call'.pendingList = some user)
  | fill (rows : List VendorIdentity) (hcarried : call.listing = some (user, rows))
      (hrows : identitiesOf w'.db user = identitiesOf w.db user)
      (hcache : w'.cachedList user = some (.identities rows))
      (hlisting : ∀ rows', call'.listing = some (user, rows') → rows' = rows)
  | commit (hafter : call'.pendingList = some user)
  | evict (hbefore : call.pendingList = some user) (hcache : w'.cachedList user = none)
      (hlisting : call'.listing = none)
  | relink (pair : Vendor × String) (new actor : String)
      (hcall : call = .link (.commit pair new actor)) (hne : user ≠ new)
      (hmapping : mapping w.db pair = some user) (hcache : w'.cachedList user = w.cachedList user)
      (hlisting : call'.listing = none)

namespace Identity

theorem Redis.set_identity_list (redis : Redis) (pair : Vendor × String) (user : String)
    (value : CacheValue) :
    (redis.set (identityCacheKey pair.1 pair.2) value) (identityListCacheKey user) =
      redis (identityListCacheKey user) := by
  rw [Redis.set, Function.update_of_ne (listKey_ne_identityKey user pair)]

theorem Redis.set_list (redis : Redis) (user user' : String) (value : CacheValue) :
    (redis.set (identityListCacheKey user') value) (identityListCacheKey user) =
      if user = user' then some value else redis (identityListCacheKey user) := by
  unfold Redis.set
  by_cases h : user = user'
  · rw [if_pos h, h, Function.update_self]
  · rw [if_neg h, Function.update_of_ne fun hkey => h (identityListCacheKey_inj.mp hkey)]

theorem Redis.evict_list (redis : Redis) (pair : Vendor × String) (user user' : String) :
    (redis.evict pair user') (identityListCacheKey user) =
      if user = user' then none else redis (identityListCacheKey user) := by
  have hkeys : identityListCacheKey user ∈
      [identityCacheKey pair.1 pair.2, identityListCacheKey user'] ↔ user = user' := by
    simp only [List.mem_cons, List.not_mem_nil, or_false, identityListCacheKey_inj,
      (listKey_ne_identityKey user pair), false_or]
  simp only [Redis.evict, Redis.del, hkeys]

theorem identitiesOf_congr {db db' : Database} (h : db'.user_identities = db.user_identities)
    (user : String) : identitiesOf db' user = identitiesOf db user := by
  rw [identitiesOf, identitiesOf, h]

end Identity

section

variable {user : String} {w : World}

theorem resolve_listEffect {s s' : ResolveState} {stores : Stores}
    (h : s.step w.toStores = some (stores, s')) :
    ListEffect user w { w with toStores := stores } (.resolve s) (.resolve s') := by
  have hids := congrArg Database.user_identities (ResolveState.step_db h)
  refine .frame (identitiesOf_congr hids user) ?_ (by simp [Call.listing])
    (by simp [Call.pendingList])
  cases s with
  | get p =>
      simp only [ResolveState.step] at h
      split at h
      · exact (Prod.mk.inj (Option.some.inj h)).1 ▸ rfl
      · exact absurd h (by simp)
      · exact (Prod.mk.inj (Option.some.inj h)).1 ▸ rfl
  | select p => exact (Prod.mk.inj (Option.some.inj h)).1 ▸ rfl
  | set p r =>
      obtain ⟨rfl, _⟩ := Prod.mk.inj (Option.some.inj h)
      exact Redis.set_identity_list w.redis p user (.text (r.getD ""))
  | returned p r => exact absurd h (by simp [ResolveState.step])

theorem link_listEffect {s s' : LinkState} {stores : Stores} (hunique : UniquePairs w.db)
    (h : s.step w.toStores = some (stores, s')) :
    ListEffect user w { w with toStores := stores } (.link s) (.link s') := by
  cases s with
  | commit p new actor =>
      simp only [LinkState.step, Option.map_eq_some_iff] at h
      obtain ⟨⟨db, row⟩, hlink, heq⟩ := h
      obtain ⟨rfl, rfl⟩ := Prod.mk.inj heq
      by_cases huser : user = new
      · exact .commit (by simp [Call.pendingList, huser])
      · by_cases hmapping : mapping w.db p = some user
        · exact .relink p new actor rfl huser hmapping rfl rfl
        · exact .frame ((linkTransaction_linked hlink).list_other user huser hunique hmapping) rfl
            (by simp [Call.listing]) (by simp [Call.pendingList])
  | del p new row =>
      obtain ⟨rfl, rfl⟩ := Prod.mk.inj (Option.some.inj h)
      have hcache := Redis.evict_list w.redis p user new
      by_cases huser : user = new
      · exact .evict (by simp [Call.pendingList, huser]) (hcache.trans (if_pos huser)) rfl
      · exact .frame rfl (hcache.trans (if_neg huser)) (by simp [Call.listing])
          (by simp [Call.pendingList, Ne.symm huser])
  | backfill p new row =>
      obtain ⟨rfl, rfl⟩ := Prod.mk.inj (Option.some.inj h)
      exact .frame rfl rfl (by simp [Call.listing]) (by simp [Call.pendingList])
  | _ => exact absurd h (by simp [LinkState.step])

theorem unlink_listEffect {s s' : UnlinkState} {stores : Stores} (hunique : UniquePairs w.db)
    (h : s.step w.toStores = some (stores, s')) :
    ListEffect user w { w with toStores := stores } (.unlink s) (.unlink s') := by
  cases s with
  | commit p old actor =>
      simp only [UnlinkState.step] at h
      split at h
      · rename_i db hunlink
        obtain ⟨rfl, rfl⟩ := Prod.mk.inj (Option.some.inj h)
        by_cases huser : user = old
        · exact .commit (by simp [Call.pendingList, huser])
        · exact .frame ((unlinkTransaction_unlinked hunique hunlink).list_other user huser) rfl
            (by simp [Call.listing]) (by simp [Call.pendingList])
      · obtain ⟨rfl, rfl⟩ := Prod.mk.inj (Option.some.inj h)
        exact .frame rfl rfl (by simp [Call.listing]) (by simp [Call.pendingList])
  | del p old =>
      obtain ⟨rfl, rfl⟩ := Prod.mk.inj (Option.some.inj h)
      have hcache := Redis.evict_list w.redis p user old
      by_cases huser : user = old
      · exact .evict (by simp [Call.pendingList, huser]) (hcache.trans (if_pos huser)) rfl
      · exact .frame rfl (hcache.trans (if_neg huser)) (by simp [Call.listing])
          (by simp [Call.pendingList, Ne.symm huser])
  | _ => exact absurd h (by simp [UnlinkState.step])

theorem list_listEffect {s s' : ListState} {stores : Stores} {order : List VendorIdentity}
    (h : s.step w.toStores order = some (stores, s')) :
    ListEffect user w { w with toStores := stores } (.list s) (.list s') := by
  cases s with
  | get u actor =>
      simp only [ListState.step] at h
      split at h
      · rename_i rows hcached
        obtain ⟨rfl, rfl⟩ := Prod.mk.inj (Option.some.inj h)
        refine .frame rfl rfl (fun rows' hrows' => ?_) (by simp [Call.pendingList])
        obtain ⟨rfl, rfl⟩ : u = user ∧ rows = rows' := by simpa [Call.listing] using hrows'
        exact .inr (.inl hcached)
      · exact absurd h (by simp)
      · obtain ⟨rfl, rfl⟩ := Prod.mk.inj (Option.some.inj h)
        exact .frame rfl rfl (by simp [Call.listing]) (by simp [Call.pendingList])
  | select u actor =>
      simp only [ListState.step] at h
      split at h
      · rename_i hordered
        obtain ⟨rfl, rfl⟩ := Prod.mk.inj (Option.some.inj h)
        refine .frame rfl rfl (fun rows' hrows' => ?_) (by simp [Call.pendingList])
        obtain ⟨rfl, rfl⟩ : u = user ∧ order = rows' := by simpa [Call.listing] using hrows'
        exact .inr (.inr hordered.1)
      · exact absurd h (by simp)
  | set u actor rows =>
      obtain ⟨rfl, rfl⟩ := Prod.mk.inj (Option.some.inj h)
      have hcache := Redis.set_list w.redis user u (.identities rows)
      by_cases huser : user = u
      · subst u
        refine .fill rows rfl rfl (hcache.trans (if_pos rfl)) fun rows' hrows' => ?_
        simpa [Call.listing] using hrows'.symm
      · refine .frame rfl (hcache.trans (if_neg huser)) (fun rows' hrows' => ?_)
          (by simp [Call.pendingList])
        simp [Call.listing, Ne.symm huser] at hrows'
  | audit u actor rows =>
      obtain ⟨rfl, rfl⟩ := Prod.mk.inj (Option.some.inj h)
      exact .frame rfl rfl (by simp [Call.listing]) (by simp [Call.pendingList])
  | finished u rows => exact absurd h (by simp [ListState.step])

/-- A call that fails leaves the lists alone, and one that was to delete a list never will. -/
theorem fail_listEffect {deps : Deps} {w' : World} {call call' : Call} (hcall : ¬ call.IsProcess)
    (h : Service.step deps w call .fail = some (w', call')) : ListEffect user w w' call call' := by
  cases Service.step_cases h with
  | processFail hfail => exact absurd ⟨_, rfl⟩ hcall
  | @linkFail s s' hfail =>
      cases s <;> cases hfail <;>
        exact .frame rfl rfl (by simp [Call.listing]) (by simp [Call.pendingList])
  | @unlinkFail s s' hfail =>
      cases s <;> cases hfail <;>
        exact .frame rfl rfl (by simp [Call.listing]) (by simp [Call.pendingList])
  | @listFail s s' hfail =>
      cases s <;> cases hfail
      exact .frame rfl rfl (fun rows hrows => .inl hrows) (by simp [Call.pendingList])

/-- The steps of identity calls, as they act on one list. -/
theorem step_listEffect {deps : Deps} {w' : World} {call call' : Call} {label : Label}
    (hunique : UniquePairs w.db) (hcall : ¬ call.IsProcess)
    (h : Service.step deps w call label = some (w', call')) : ListEffect user w w' call call' := by
  cases Service.step_cases h with
  | process hstep => exact absurd ⟨_, rfl⟩ hcall
  | processFail hfail => exact absurd ⟨_, rfl⟩ hcall
  | resolve _ hstep => exact resolve_listEffect hstep
  | link _ hstep => exact link_listEffect hunique hstep
  | unlink _ hstep => exact unlink_listEffect hunique hstep
  | list hstep => exact list_listEffect hstep
  | _ => exact fail_listEffect hcall h

end

/-! ### One call after the other -/

theorem committed_unsettled {call : Call} {pair : Vendor × String}
    (h : call.mutation pair = some .committed) :
    ¬ call.Settled ∧ ∀ p r, ¬ call.Carries p r := by
  cases call with
  | process s => exact absurd h (by simp [Call.mutation])
  | resolve s => exact absurd h (by simp [Call.mutation])
  | link s =>
      refine ⟨?_, by simp [Call.Carries, Call.resolving]⟩
      cases s with
      | rejected p c committed =>
          cases committed <;> simp_all [Call.mutation, Call.Settled, rejectedPhase]
      | _ => simp_all [Call.mutation, Call.Settled]
  | unlink s =>
      refine ⟨?_, by simp [Call.Carries, Call.resolving]⟩
      cases s with
      | rejected p c committed =>
          cases committed <;> simp_all [Call.mutation, Call.Settled, rejectedPhase]
      | _ => simp_all [Call.mutation, Call.Settled]
  | list s => exact absurd h (by simp [Call.mutation])

theorem pendingList_unsettled {call : Call} {user : String}
    (h : call.pendingList = some user) : ¬ call.Settled := by
  intro hsettled
  rw [hsettled.pendingList] at h
  exact absurd h (by simp)

/-- An identity call stays one, and once settled stays settled. -/
theorem step_keeps {deps : Deps} {w w' : World} {call call' : Call} {label : Label}
    (hcall : ¬ call.IsProcess) (h : Service.step deps w call label = some (w', call')) :
    ¬ call'.IsProcess ∧ (call.Settled → call'.Settled) := by
  cases Service.step_cases h with
  | process hstep => exact absurd ⟨_, rfl⟩ hcall
  | processFail hfail => exact absurd ⟨_, rfl⟩ hcall
  | @resolve s _ _ _ hstep =>
      refine ⟨by simp [Call.IsProcess], fun hsettled => ?_⟩
      cases s <;> simp [Call.Settled, ResolveState.step] at hsettled hstep
  | @link s _ _ _ hstep =>
      refine ⟨by simp [Call.IsProcess], fun hsettled => ?_⟩
      cases s with
      | commit p c actor => exact hsettled.elim
      | del p c row => exact hsettled.elim
      | backfill p c row =>
          obtain ⟨_, rfl⟩ := Prod.mk.inj (Option.some.inj hstep)
          trivial
      | _ => exact absurd hstep (by simp [LinkState.step])
  | @linkFail s _ hfail =>
      refine ⟨by simp [Call.IsProcess], fun hsettled => ?_⟩
      cases s <;> cases hfail
      · exact hsettled.elim
      · exact hsettled.elim
      · trivial
  | @unlink s _ _ _ hstep =>
      refine ⟨by simp [Call.IsProcess], fun hsettled => ?_⟩
      cases s <;> simp [Call.Settled, UnlinkState.step] at hsettled hstep
  | @unlinkFail s _ hfail =>
      refine ⟨by simp [Call.IsProcess], fun hsettled => ?_⟩
      cases s <;> simp [Call.Settled, UnlinkState.fail] at hsettled hfail
  | @list s _ _ _ hstep =>
      refine ⟨by simp [Call.IsProcess], fun hsettled => ?_⟩
      cases s <;> simp [Call.Settled, ListState.step] at hsettled hstep
  | @listFail s _ hfail =>
      refine ⟨by simp [Call.IsProcess], fun hsettled => ?_⟩
      cases s <;> simp [Call.Settled, ListState.fail] at hsettled hfail

def PendingList (c : Config) (user : String) : Prop :=
  HasCall c fun call => call.pendingList = some user

/-- Entry and running calls of a list agree with the table. -/
structure ListFresh (c : Config) (user : String) : Prop where
  entry : ∀ rows, c.shared.cachedList user = some (.identities rows) →
    rows.Perm (identitiesOf c.shared.db user)
  calls : ∀ i call rows, c.threads i = some call → call.listing = some (user, rows) →
    rows.Perm (identitiesOf c.shared.db user)

/-- What holds in every state of a sequential run. -/
structure SequentialInv (c : Config) : Prop where
  unique : UniquePairs c.shared.db
  nonEmpty : NonEmptyUsers c.shared.db
  links : ∀ i pair actor, c.threads i ≠ some (.link (.commit pair "" actor))
  identity : ∀ i call, c.threads i = some call → ¬ call.IsProcess
  one : ∀ i j call other, c.threads i = some call → c.threads j = some other →
    ¬ call.Settled → ¬ other.Settled → i = j
  fresh : ∀ pair, ¬ Pending c pair → Fresh c pair
  list : ∀ user, ¬ PendingList c user → ListFresh c user

variable {c c' : Config} {a : Action} {deps : Deps}

/-- The calls besides an unsettled one are settled. -/
theorem SequentialInv.others (hinv : SequentialInv c) {i j : ℕ} {call other : Call}
    (hi : c.threads i = some call) (hcall : ¬ call.Settled) (hji : j ≠ i)
    (hj : c.threads j = some other) : other.Settled := by
  by_contra hother
  exact hji (hinv.one j i other call hj hi hother hcall)

/-- The mover of a deletion is the only unsettled call, so no reader is under way. -/
theorem SequentialInv.evictsAfterReaders (hinv : SequentialInv c) (pair : Vendor × String) :
    EvictsAfterReaders pair c a := by
  intro i label call _ hi hcommitted _ j other r hj hcarry
  obtain ⟨hunsettled, hnot⟩ := committed_unsettled hcommitted
  by_cases hji : j = i
  · subst j
    obtain rfl := Option.some.inj (hi.symm.trans hj)
    exact absurd hcarry (hnot pair r)
  · exact absurd hcarry ((hinv.others hi hunsettled hji hj).not_carries pair r)

/-- When the mover was unsettled and obtains no rows, no call has any. -/
theorem SequentialInv.listFresh_of_none (hinv : SequentialInv c) {i : ℕ} {call call' : Call}
    {w' : World} {user : String} (hi : c.threads i = some call) (hcall : ¬ call.Settled)
    (hlisting : call'.listing = none)
    (hentry : ∀ rows, w'.cachedList user ≠ some (.identities rows)) :
    ListFresh ⟨w', Function.update c.threads i (some call')⟩ user := by
  refine ⟨fun rows h => absurd h (hentry rows), fun j other rows hj hother => ?_⟩
  have hnone : other.listing = none := by
    obtain ⟨_, rfl⟩ | ⟨hji, hj⟩ := Program.update_cases hj
    · exact hlisting
    · exact (hinv.others hi hcall hji hj).listing
  rw [hnone] at hother
  exact absurd hother (by simp)

theorem SequentialInv.list_step (hinv : SequentialInv c) {i : ℕ} {call call' : Call} {w' : World}
    {label : Label} {user : String} (hguard : NoCachedRelink c (.step i label))
    (hi : c.threads i = some call) (heffect : ListEffect user c.shared w' call call')
    (hpending : ¬ PendingList ⟨w', Function.update c.threads i (some call')⟩ user) :
    ListFresh ⟨w', Function.update c.threads i (some call')⟩ user := by
  have hself : call'.pendingList ≠ some user := fun h =>
    hpending ⟨i, call', Function.update_self .., h⟩
  have hbefore (hcall : call.pendingList ≠ some user) : ListFresh c user := by
    refine hinv.list user ?_
    rintro ⟨j, other, hj, hother⟩
    by_cases hji : j = i
    · subst j
      obtain rfl := Option.some.inj (hi.symm.trans hj)
      exact hcall hother
    · exact hpending ⟨j, other, (Function.update_of_ne hji ..).trans hj, hother⟩
  cases heffect with
  | frame hrows hcache hlisting hpend =>
      have hfresh := hbefore fun h => hself (hpend h)
      constructor
      · intro rows hentry
        rw [hrows]
        exact hfresh.entry rows (hcache ▸ hentry)
      · intro j other rows hj hother
        rw [hrows]
        obtain ⟨_, rfl⟩ | ⟨_, hj⟩ := Program.update_cases hj
        · rcases hlisting rows hother with h | h | h
          · exact hfresh.calls i call rows hi h
          · exact hfresh.entry rows h
          · exact h
        · exact hfresh.calls j other rows hj hother
  | fill rows hcarried hrows hcache hlisting =>
      have hfresh := hbefore (by simp [Call.pendingList_of_listing hcarried])
      have hperm := hfresh.calls i call rows hi hcarried
      constructor
      · intro rows' hentry
        rw [hrows]
        obtain rfl : rows = rows' := by simpa [hcache] using hentry
        exact hperm
      · intro j other rows' hj hother
        rw [hrows]
        obtain ⟨_, rfl⟩ | ⟨_, hj⟩ := Program.update_cases hj
        · rw [hlisting rows' hother]
          exact hperm
        · exact hfresh.calls j other rows' hj hother
  | commit hafter => exact absurd hafter hself
  | evict hcall hcache hlisting =>
      refine hinv.listFresh_of_none hi (pendingList_unsettled hcall) hlisting fun rows => ?_
      rw [hcache]
      simp
  | relink pair new actor hcall hne hmapping hcache hlisting =>
      have huncached := hguard i label pair new actor user rfl (hcall ▸ hi) hmapping hne
      refine hinv.listFresh_of_none hi (by rw [hcall]; exact id) hlisting fun rows => ?_
      rw [hcache, huncached]
      simp

/-- Sequential runs in which no link takes a pair from a user with a cached list. -/
def SequentialGuard (c : Config) (a : Action) : Prop :=
  StartsCalls a ∧ Sequential c a ∧ NoCachedRelink c a

theorem Call.Initial.listing {call : Call} (h : call.Initial) :
    call.listing = none ∧ call.pendingList = none := by
  cases h <;> exact ⟨rfl, rfl⟩

theorem SequentialInv.spawn (hinv : SequentialInv c) {i : ℕ} {call : Call}
    (hnone : c.threads i = none) (hstart : StartsCalls (.spawn i call))
    (hseq : Sequential c (.spawn i call)) :
    SequentialInv { c with threads := Function.update c.threads i (some call) } := by
  obtain ⟨hinitial, hlink⟩ := hstart
  obtain ⟨hidentity, hsettled⟩ := hseq
  have hold {j : ℕ} {other : Call} (hj : c.threads j = some other) :
      Function.update c.threads i (some call) j = some other := by
    refine (Function.update_of_ne ?_ ..).trans hj
    rintro rfl
    exact absurd (hnone.symm.trans hj) (by simp)
  refine ⟨hinv.unique, hinv.nonEmpty, ?_, ?_, ?_, ?_, ?_⟩
  · intro j p actor hj
    obtain ⟨_, rfl⟩ | ⟨_, hj⟩ := Program.update_cases hj
    · exact hlink p actor rfl
    · exact hinv.links j p actor hj
  · intro j other hj
    obtain ⟨_, rfl⟩ | ⟨_, hj⟩ := Program.update_cases hj
    · exact hidentity
    · exact hinv.identity j other hj
  · -- All that were there before are settled.
    intro j k p q hj hk hp hq
    obtain ⟨rfl, rfl⟩ | ⟨_, hj⟩ := Program.update_cases hj
    · obtain ⟨rfl, rfl⟩ | ⟨_, hk⟩ := Program.update_cases hk
      · rfl
      · exact absurd (hsettled k q hk) hq
    · exact absurd (hsettled j p hj) hp
  · intro pair hpend
    refine (hinv.fresh pair fun ⟨j, other, hj, h⟩ => hpend ⟨j, other, hold hj, h⟩).spawn hinitial
  · intro user hpend
    have hfresh := hinv.list user fun ⟨j, other, hj, h⟩ => hpend ⟨j, other, hold hj, h⟩
    refine ⟨hfresh.entry, fun j other rows hj hother => ?_⟩
    obtain ⟨_, rfl⟩ | ⟨_, hj⟩ := Program.update_cases hj
    · rw [hinitial.listing.1] at hother
      exact absurd hother (by simp)
    · exact hfresh.calls j other rows hj hother

theorem SequentialInv.move (hinv : SequentialInv c) {i : ℕ} {label : Label} {call call' : Call}
    {w' : World} (hrelink : NoCachedRelink c (.step i label)) (hi : c.threads i = some call)
    (hstep : Service.step deps c.shared call label = some (w', call')) :
    SequentialInv { shared := w', threads := Function.update c.threads i (some call') } := by
  have htable := step_table hinv.unique hstep
  obtain ⟨hidentity, hsettled⟩ := step_keeps (hinv.identity i call hi) hstep
  refine ⟨htable.unique hinv.unique, htable.nonEmpty hinv.nonEmpty fun p actor h => ?_,
    ?_, ?_, ?_, ?_, ?_⟩
  · exact hinv.links i p actor (h ▸ hi)
  · intro j p actor hj
    obtain ⟨_, rfl⟩ | ⟨_, hj⟩ := Program.update_cases hj
    · exact step_not_commit hstep p "" actor rfl
    · exact hinv.links j p actor hj
  · intro j other hj
    obtain ⟨_, rfl⟩ | ⟨_, hj⟩ := Program.update_cases hj
    · exact hidentity
    · exact hinv.identity j other hj
  · -- The mover stands for itself: it is unsettled now only if it was.
    intro j k p q hj hk hp hq
    obtain ⟨rfl, rfl⟩ | ⟨_, hj'⟩ := Program.update_cases hj
    · obtain ⟨rfl, rfl⟩ | ⟨_, hk'⟩ := Program.update_cases hk
      · rfl
      · exact hinv.one j k call q hi hk' (fun h => hp (hsettled h)) hq
    · obtain ⟨rfl, rfl⟩ | ⟨_, hk'⟩ := Program.update_cases hk
      · exact hinv.one j k p call hj' hi hp fun h => hq (hsettled h)
      · exact hinv.one j k p q hj' hk' hp hq
  · intro pair hpend
    have hguard : EvictsAfterReaders pair c (.step i label) := hinv.evictsAfterReaders pair
    exact fresh_step hguard hi (step_effect hinv.unique hstep) hpend fun _ => hinv.fresh pair
  · intro user hpend
    exact hinv.list_step hrelink hi
      (step_listEffect hinv.unique (hinv.identity i call hi) hstep) hpend

/-- An expiry can only take a list out of the cache. -/
theorem event_cachedList {x : Event} {w w' : World} (h : Service.event w x = some w')
    (user : String) : w'.cachedList user = w.cachedList user ∨ w'.cachedList user = none := by
  cases x with
  | expire key =>
      obtain rfl := Option.some.inj h
      by_cases hkey : identityListCacheKey user = key
      · exact .inr (by simp [Stores.cachedList, Redis.del, hkey])
      · exact .inl (by simp [Stores.cachedList, Redis.del, hkey])
  | tick ms =>
      obtain rfl := Option.some.inj h
      exact .inl rfl

theorem SequentialInv.event (hinv : SequentialInv c) {x : Event} {w' : World}
    (hevent : Service.event c.shared x = some w') : SequentialInv { c with shared := w' } := by
  have hids := event_identities hevent
  refine ⟨by rw [UniquePairs, hids]; exact hinv.unique, fun p => ?_, hinv.links, hinv.identity,
    hinv.one, fun pair hpend => (hinv.fresh pair hpend).event hevent, fun user hpend => ?_⟩
  · rw [mapping_congr hids]
    exact hinv.nonEmpty p
  · have hfresh := hinv.list user hpend
    have hrows := identitiesOf_congr hids user
    refine ⟨fun rows hentry => ?_, fun j other rows hj hother => ?_⟩
    · rw [hrows]
      rcases event_cachedList hevent user with h | h
      · exact hfresh.entry rows (h ▸ hentry)
      · exact absurd (h.symm.trans hentry) (by simp)
    · rw [hrows]
      exact hfresh.calls j other rows hj hother

theorem SequentialInv.step (hinv : SequentialInv c) (hguard : SequentialGuard c a)
    (hexec : (program deps).exec c a = some c') : SequentialInv c' := by
  obtain ⟨hstart, hseq, hrelink⟩ := hguard
  obtain ⟨i, call, rfl, hnone, rfl⟩ | ⟨i, label, call, w', call', rfl, hi, hstep, rfl⟩ |
    ⟨x, w', rfl, hevent, rfl⟩ := Program.exec_cases hexec
  · exact hinv.spawn hnone hstart hseq
  · exact hinv.move hrelink hi hstep
  · exact hinv.event hevent

theorem sequentialInv_of_reach (h : (coherentSystem deps).Reach SequentialGuard c) :
    SequentialInv c := by
  refine h.invariant (fun c₀ h₀ => ?_) fun c a c' hinv hguard hexec => hinv.step hguard hexec
  obtain ⟨⟨⟨hunique, hnonEmpty⟩, hcoherent⟩, hidle⟩ := h₀
  have hno {i : ℕ} {call : Call} (hi : c₀.threads i = some call) : False :=
    absurd ((hidle i).symm.trans hi) (by simp)
  exact ⟨hunique, hnonEmpty, fun i p actor hi => hno hi, fun i call hi => (hno hi).elim,
    fun i j p q hi => (hno hi).elim,
    fun pair _ => ⟨hcoherent.resolve pair, fun i call r hi => (hno hi).elim⟩,
    fun user _ => ⟨hcoherent.list user, fun i call rows hi => (hno hi).elim⟩⟩

/-! ### What the calls return -/

/-- A list call returns the rows it has obtained. -/
theorem step_finished {w w' : World} {call : Call} {label : Label} {user : String}
    {rows : List VendorIdentity}
    (h : Service.step deps w call label = some (w', .list (.finished user rows))) :
    call.listing = some (user, rows) := by
  cases Service.step_cases h with
  | @list s _ _ _ hstep =>
      cases s with
      | get u actor =>
          simp only [ListState.step] at hstep
          split at hstep
          · exact absurd (Prod.mk.inj (Option.some.inj hstep)).2 (by simp)
          · exact absurd hstep (by simp)
          · exact absurd (Prod.mk.inj (Option.some.inj hstep)).2 (by simp)
      | select u actor =>
          simp only [ListState.step] at hstep
          split at hstep
          · exact absurd (Prod.mk.inj (Option.some.inj hstep)).2 (by simp)
          · exact absurd hstep (by simp)
      | set u actor rows' => exact absurd (Prod.mk.inj (Option.some.inj hstep)).2 (by simp)
      | audit u actor rows' =>
          obtain ⟨rfl, rfl⟩ := ListState.finished.inj (Prod.mk.inj (Option.some.inj hstep)).2
          rfl
      | finished u rows' => exact absurd hstep (by simp [ListState.step])
  | @listFail s _ hfail => cases s <;> simp [ListState.fail] at hfail

/-- All a settled call can still do is the backfill of a link. -/
theorem settled_step {w w' : World} {call call' : Call} {label : Label} (hsettled : call.Settled)
    (h : Service.step deps w call label = some (w', call')) : ∃ s, call' = .link s := by
  cases Service.step_cases h with
  | process hstep => exact hsettled.elim
  | processFail hfail => exact hsettled.elim
  | @resolve s _ _ _ hstep =>
      cases s <;> simp [Call.Settled, ResolveState.step] at hsettled hstep
  | link _ hstep => exact ⟨_, rfl⟩
  | linkFail hfail => exact ⟨_, rfl⟩
  | @unlink s _ _ _ hstep =>
      cases s <;> simp [Call.Settled, UnlinkState.step] at hsettled hstep
  | @unlinkFail s _ hfail =>
      cases s <;> simp [Call.Settled, UnlinkState.fail] at hsettled hfail
  | @list s _ _ _ hstep =>
      cases s <;> simp [Call.Settled, ListState.step] at hsettled hstep
  | @listFail s _ hfail =>
      cases s <;> simp [Call.Settled, ListState.fail] at hsettled hfail

def otherUser : String := "01HS0N8R9MCANONICALUSER002"

/-- What `sampleUser` has after the first link. -/
def sampleRow : VendorIdentity where
  id := 1
  vendor := .trackpro
  vendor_user_id := "demo-player-1"
  canonical_user_id := sampleUser
  created_at := 1710498600000
  updated_at := 1710498600000

/-- A list call up to its return. -/
def listActions (j : ℕ) : List Action :=
  [.spawn j (.list (.get sampleUser "internal-api")), .step j (.order []),
    .step j (.order [sampleRow]), .step j (.order []), .step j (.order [])]

theorem noCalls_coherent (deps : Deps) : (coherentSystem deps).init noCalls :=
  ⟨⟨(noCalls_init deps).1, by simp [noCalls, freshWorld, Stores.cached],
    by simp [noCalls, freshWorld, Stores.cachedList]⟩, fun _ => rfl⟩

theorem startsCalls_relink : StartsCalls (.spawn 2 (.link (.commit samplePair otherUser
    "internal-api"))) := by
  refine ⟨.link _ _ _, fun p actor heq => ?_⟩
  obtain ⟨_, hc, _⟩ := LinkState.commit.inj (Call.link.inj heq)
  exact absurd hc (by decide)

/-- Steps of calls that run already. -/
theorem run_steps {as : List Action} (hsteps : ∀ a ∈ as, ∃ i label, a = .step i label)
    (hexec : (coherentSystem deps).execAll c as = some c') :
    (coherentSystem deps).Run (fun c a => StartsCalls a ∧ Sequential c a) c as c' := by
  refine System.run_of_execAll (fun a ha c => ?_) hexec
  obtain ⟨i, label, rfl⟩ := hsteps a ha
  exact ⟨trivial, trivial⟩

/-- A call, run alone to its end. -/
theorem run_call {i : ℕ} {call : Call} {as : List Action} (hstarts : StartsCalls (.spawn i call))
    (hidentity : ¬ call.IsProcess) (hsettled : ∀ j other, c.threads j = some other → other.Settled)
    (hsteps : ∀ a ∈ as, ∃ i label, a = .step i label)
    (hexec : (coherentSystem deps).execAll c (.spawn i call :: as) = some c') :
    (coherentSystem deps).Run (fun c a => StartsCalls a ∧ Sequential c a) c (.spawn i call :: as)
      c' := by
  rw [System.execAll, Option.bind_eq_some_iff] at hexec
  obtain ⟨c₁, hspawn, hrest⟩ := hexec
  exact .cons ⟨hstarts, hidentity, hsettled⟩ hspawn (run_steps hsteps hrest)

/-- The second list call, up to the record it writes. -/
def listAgain : List Action :=
  [.spawn 3 (.list (.get sampleUser "internal-api")), .step 3 (.order [])]

def relinkActions (j : ℕ) : List Action :=
  [.spawn j (.link (.commit samplePair otherUser "internal-api")), .step j (.ok 0),
    .step j (.ok 0)]

/-- The configuration after some calls. -/
def afterCalls (deps : Deps) (as : List Action) : Config :=
  ((coherentSystem deps).execAll noCalls as).getD noCalls

theorem NoCachedRelink.of_unlinked {i : ℕ} {label : Label} {call : Call}
    (hi : c.threads i = some call) (h : ∀ pair user actor, call = .link (.commit pair user actor) →
      mapping c.shared.db pair = none) : NoCachedRelink c (.step i label) := by
  intro j label' pair user actor old heq hj hmapping
  obtain ⟨rfl, _⟩ := Lib.Action.step.inj heq
  have hnone := h pair user actor (Option.some.inj (hi.symm.trans hj))
  exact absurd (hnone.symm.trans hmapping) (by simp)

def afterListing : Config :=
  ((coherentSystem sampleDeps).execAll afterLink ((listActions 1).take 4)).getD noCalls

end PureplayIngest
