import PureplayIngest.Identity.ListCoherence

/-!
How old an answer from the identity caches can be.

An entry is set for 60 seconds, that of a list for 30, and Redis returns no
entry whose time is over. What is set has been read from the table shortly
before, but other calls may have changed the table in between, and a stale entry
can be set after the deletion that was to remove it. Whatever the interleaving,
no entry outlives its time: it holds what the table held not longer ago than
that, and the time between the read and the write.
-/

namespace PureplayIngest

open Shared.Domain Shared.Kysely Identity Ingestion Lib Service

/-! ### What a step writes to Redis -/

/-- The key a call is about to read. -/
def Call.getting : Call → Option String
  | .process (.resolving _ (.get pair)) => some (identityCacheKey pair.1 pair.2)
  | .resolve (.get pair) => some (identityCacheKey pair.1 pair.2)
  | .list (.get user _) => some (identityListCacheKey user)
  | _ => none

/-- The key a call is about to set, and what to. -/
def Call.setting : Call → Option (String × CacheValue)
  | .process (.resolving _ (.set pair result)) =>
      some (identityCacheKey pair.1 pair.2, .text (result.getD ""))
  | .resolve (.set pair result) => some (identityCacheKey pair.1 pair.2, .text (result.getD ""))
  | .list (.set user _ rows) => some (identityListCacheKey user, .identities rows)
  | _ => none

/-- What a step sets; an attempt that fails sets nothing. -/
def Call.written (call : Call) : Label → Option (String × CacheValue)
  | .fail => none
  | _ => call.setting

/-- What one step does to Redis: it sets what the call was about to, or it sets
nothing, and may delete. -/
inductive RedisEffect (w w' : World) (written : Option (String × CacheValue)) : Prop
  | set {key : String} {value : CacheValue} (hwritten : written = some (key, value))
      (hredis : w'.redis = w.redis.set key value)
  | kept (hwritten : written = none)
      (hredis : ∀ key value, w'.redis key = some value → w.redis key = some value)

/-- What a call is about to set is what the table holds when it gets that far. -/
inductive CurrentValue (db : Database) : String → CacheValue → Prop
  | text (pair : Vendor × String) :
      CurrentValue db (identityCacheKey pair.1 pair.2) (.text ((mapping db pair).getD ""))
  | identities (user : String) {rows : List VendorIdentity}
      (hrows : rows.Perm (identitiesOf db user)) :
      CurrentValue db (identityListCacheKey user) (.identities rows)

section

variable {deps : Deps} {w w' : World} {call call' : Call} {label : Label}

theorem Redis.evict_kept {redis : Redis} {pair : Vendor × String} {user key : String}
    {value : CacheValue} (h : redis.evict pair user key = some value) : redis key = some value := by
  rw [Redis.evict, Redis.del] at h
  split at h
  · exact absurd h (by simp)
  · exact h

theorem resolve_redisEffect {s s' : ResolveState} {stores : Stores}
    (h : s.step w.toStores = some (stores, s')) :
    RedisEffect w { w with toStores := stores } (Call.resolve s).setting := by
  cases s with
  | get pair =>
      rw [ResolveState.step] at h
      split at h
      · obtain ⟨rfl, _⟩ := Prod.mk.inj (Option.some.inj h)
        exact .kept rfl fun _ _ h => h
      · exact absurd h (by simp)
      · obtain ⟨rfl, _⟩ := Prod.mk.inj (Option.some.inj h)
        exact .kept rfl fun _ _ h => h
  | select pair =>
      obtain ⟨rfl, _⟩ := Prod.mk.inj (Option.some.inj h)
      exact .kept rfl fun _ _ h => h
  | set pair result =>
      obtain ⟨rfl, _⟩ := Prod.mk.inj (Option.some.inj h)
      exact .set rfl rfl
  | returned pair result => exact absurd h (by simp [ResolveState.step])

theorem step_redisEffect (h : Service.step deps w call label = some (w', call')) :
    RedisEffect w w' (call.written label) := by
  cases Service.step_cases h with
  | process hstep =>
      cases ProcessState.step_cases hstep with
      | @resolving job call₁ call₂ stores hcall =>
          have heffect := resolve_redisEffect hcall
          cases call₁ <;> exact heffect
      | _ => exact .kept rfl fun _ _ h => h
  | processFail hfail => exact .kept rfl fun _ _ h => h
  | resolve k hstep => exact resolve_redisEffect hstep
  | @link s s' stores k hstep =>
      cases s with
      | commit p c actor =>
          obtain ⟨⟨db, row⟩, _, heq⟩ := Option.map_eq_some_iff.mp hstep
          obtain ⟨rfl, _⟩ := Prod.mk.inj heq
          exact .kept rfl fun _ _ h => h
      | del p c row =>
          obtain ⟨rfl, _⟩ := Prod.mk.inj (Option.some.inj hstep)
          exact .kept rfl fun _ _ h => Redis.evict_kept h
      | backfill p c row =>
          obtain ⟨rfl, _⟩ := Prod.mk.inj (Option.some.inj hstep)
          exact .kept rfl fun _ _ h => h
      | _ => exact absurd hstep (by simp [LinkState.step])
  | linkFail hfail => exact .kept rfl fun _ _ h => h
  | @unlink s s' stores k hstep =>
      cases s with
      | commit p c actor =>
          rw [UnlinkState.step] at hstep
          split at hstep
          · obtain ⟨rfl, _⟩ := Prod.mk.inj (Option.some.inj hstep)
            exact .kept rfl fun _ _ h => h
          · obtain ⟨rfl, _⟩ := Prod.mk.inj (Option.some.inj hstep)
            exact .kept rfl fun _ _ h => h
      | del p c =>
          obtain ⟨rfl, _⟩ := Prod.mk.inj (Option.some.inj hstep)
          exact .kept rfl fun _ _ h => Redis.evict_kept h
      | _ => exact absurd hstep (by simp [UnlinkState.step])
  | unlinkFail hfail => exact .kept rfl fun _ _ h => h
  | listFail hfail => exact .kept rfl fun _ _ h => h
  | @list s s' stores order hstep =>
      cases s with
      | get u actor =>
          rw [ListState.step] at hstep
          split at hstep
          · obtain ⟨rfl, _⟩ := Prod.mk.inj (Option.some.inj hstep)
            exact .kept rfl fun _ _ h => h
          · exact absurd hstep (by simp)
          · obtain ⟨rfl, _⟩ := Prod.mk.inj (Option.some.inj hstep)
            exact .kept rfl fun _ _ h => h
      | select u actor =>
          rw [ListState.step] at hstep
          split at hstep
          · obtain ⟨rfl, _⟩ := Prod.mk.inj (Option.some.inj hstep)
            exact .kept rfl fun _ _ h => h
          · exact absurd hstep (by simp)
      | set u actor rs =>
          obtain ⟨rfl, _⟩ := Prod.mk.inj (Option.some.inj hstep)
          exact .set rfl rfl
      | audit u actor rs =>
          obtain ⟨rfl, _⟩ := Prod.mk.inj (Option.some.inj hstep)
          exact .kept rfl fun _ _ h => h
      | finished u rs => exact absurd hstep (by simp [ListState.step])

/-- A call is about to set what it has just read from the table. -/
theorem step_setting (h : Service.step deps w call label = some (w', call')) {key : String}
    {value : CacheValue} (hsetting : call'.setting = some (key, value)) :
    CurrentValue w.db key value := by
  have hresolve {s s' : ResolveState} {stores : Stores}
      (hstep : s.step w.toStores = some (stores, s'))
      (hset : (Call.resolve s').setting = some (key, value)) : CurrentValue w.db key value := by
    cases s with
    | get pair =>
        rw [ResolveState.step] at hstep
        split at hstep
        · obtain ⟨_, rfl⟩ := Prod.mk.inj (Option.some.inj hstep)
          exact absurd hset (by simp [Call.setting])
        · exact absurd hstep (by simp)
        · obtain ⟨_, rfl⟩ := Prod.mk.inj (Option.some.inj hstep)
          exact absurd hset (by simp [Call.setting])
    | select pair =>
        obtain ⟨_, rfl⟩ := Prod.mk.inj (Option.some.inj hstep)
        obtain ⟨rfl, rfl⟩ := Prod.mk.inj (Option.some.inj hset)
        exact .text pair
    | set pair result =>
        obtain ⟨_, rfl⟩ := Prod.mk.inj (Option.some.inj hstep)
        exact absurd hset (by simp [Call.setting])
    | returned pair result => exact absurd hstep (by simp [ResolveState.step])
  cases Service.step_cases h with
  | process hstep =>
      cases ProcessState.step_cases hstep with
      | @resolving job call₁ call₂ stores hcall =>
          refine hresolve hcall ?_
          cases call₂ with
          | returned pair result =>
              exact absurd hsetting (by simp [Ingestion.afterResolve, Call.setting])
          | _ => exact hsetting
      | _ => exact absurd hsetting (by simp [Call.setting])
  | processFail hfail =>
      obtain ⟨job, rfl⟩ := ProcessState.fail_cases hfail
      exact absurd hsetting (by simp [Call.setting])
  | resolve k hstep => exact hresolve hstep hsetting
  | @list s s' stores order hstep =>
      cases s with
      | get u actor =>
          rw [ListState.step] at hstep
          split at hstep
          · obtain ⟨_, rfl⟩ := Prod.mk.inj (Option.some.inj hstep)
            exact absurd hsetting (by simp [Call.setting])
          · exact absurd hstep (by simp)
          · obtain ⟨_, rfl⟩ := Prod.mk.inj (Option.some.inj hstep)
            exact absurd hsetting (by simp [Call.setting])
      | select u actor =>
          rw [ListState.step] at hstep
          split at hstep
          · rename_i hordered
            obtain ⟨_, rfl⟩ := Prod.mk.inj (Option.some.inj hstep)
            obtain ⟨rfl, rfl⟩ := Prod.mk.inj (Option.some.inj hsetting)
            exact .identities u hordered.1
          · exact absurd hstep (by simp)
      | set u actor rs =>
          obtain ⟨_, rfl⟩ := Prod.mk.inj (Option.some.inj hstep)
          exact absurd hsetting (by simp [Call.setting])
      | audit u actor rs =>
          obtain ⟨_, rfl⟩ := Prod.mk.inj (Option.some.inj hstep)
          exact absurd hsetting (by simp [Call.setting])
      | finished u rs => exact absurd hstep (by simp [ListState.step])
  | @listFail s s' hfail =>
      cases s <;> cases hfail
      exact absurd hsetting (by simp [Call.setting])
  | _ => exact absurd hsetting (by simp [Call.setting])

theorem Call.Initial.setting {call : Call} (h : call.Initial) : call.setting = none := by
  cases h with
  | process job =>
      rw [Ingestion.process]
      split <;> rfl
  | _ => rfl

end

theorem CurrentValue.text_iff {db : Database} {pair : Vendor × String} {s : String} :
    CurrentValue db (identityCacheKey pair.1 pair.2) (.text s) ↔ s = (mapping db pair).getD "" := by
  constructor
  · intro h
    generalize hkey : identityCacheKey pair.1 pair.2 = key at h
    generalize hvalue : CacheValue.text s = value at h
    cases h with
    | text pair' =>
        obtain rfl := identityCacheKey_inj.mp hkey
        exact CacheValue.text.inj hvalue
    | identities user hrows => exact absurd hvalue (by simp)
  · rintro rfl
    exact .text pair

theorem CurrentValue.identities_iff {db : Database} {user : String} {rows : List VendorIdentity} :
    CurrentValue db (identityListCacheKey user) (.identities rows) ↔
      rows.Perm (identitiesOf db user) := by
  constructor
  · intro h
    generalize hkey : identityListCacheKey user = key at h
    generalize hvalue : CacheValue.identities rows = value at h
    cases h with
    | text pair => exact absurd hvalue (by simp)
    | identities user' hrows =>
        obtain rfl := identityListCacheKey_inj.mp hkey
        obtain rfl := CacheValue.identities.inj hvalue
        exact hrows
  · exact .identities user

/-! ### Entries with a lifetime -/

def Identity.identityCacheTtlS : ℤ := 60
def Identity.identityListCacheTtlS : ℤ := 30

/-- The milliseconds an entry is set for. -/
def Identity.CacheValue.lifetime : CacheValue → ℤ
  | .text _ => identityCacheTtlS * 1000
  | .identities _ => identityListCacheTtlS * 1000

/-- The stores, and when the time of each entry is over. -/
structure TimedWorld extends World where
  expiresAt : String → ℤ

/-- A call, and when it has made its last step. -/
structure TimedCall where
  call : Call
  steppedAt : ℤ

/-- What Redis returns for a key. -/
def TimedWorld.entry (w : TimedWorld) (key : String) : Option CacheValue :=
  if w.expiresAt key ≤ w.db.now then none else w.redis key

/-- An entry whose time is over is deleted when its key is read. -/
def TimedWorld.purged (w : TimedWorld) (key : String) : World :=
  if w.expiresAt key ≤ w.db.now then { w.toWorld with redis := w.redis.del [key] }
  else w.toWorld

/-- The stores as a call finds them. -/
def TimedWorld.seenBy (w : TimedWorld) (call : Call) : World :=
  match call.getting with
  | some key => w.purged key
  | none => w.toWorld

def TimedWorld.expiresAfter (w : TimedWorld) : Option (String × CacheValue) → String → ℤ
  | some (key, value) => Function.update w.expiresAt key (w.db.now + value.lifetime)
  | none => w.expiresAt

namespace Timed

def step (deps : Deps) (w : TimedWorld) (p : TimedCall) (label : Label) :
    Option (TimedWorld × TimedCall) :=
  (Service.step deps (w.seenBy p.call) p.call label).map fun (world, call) =>
    ({ toWorld := world, expiresAt := w.expiresAfter (p.call.written label) }, ⟨call, w.db.now⟩)

def event (w : TimedWorld) (x : Event) : Option TimedWorld :=
  (Service.event w.toWorld x).map fun world => { w with toWorld := world }

def program (deps : Deps) : Program ℕ TimedWorld TimedCall Label Event where
  step _ w p label := step deps w p label
  env := event

abbrev Config := Lib.Config ℕ TimedWorld TimedCall

abbrev Action := Lib.Action ℕ TimedCall Label Event

/-- The runs from empty caches. -/
def system (deps : Deps) : System Config Action :=
  (program deps).system fun w => w.redis = fun _ => none

/-- Calls start at their beginning, and what a call has read it sets within `delta`
milliseconds. -/
def SetsWithin (delta : ℤ) (c : Config) : Action → Prop
  | .spawn _ p => p.call.Initial
  | .step i label => ∀ p, c.threads i = some p → p.call.written label ≠ none →
      c.shared.db.now ≤ p.steppedAt + delta
  | .env _ => True

/-! ### Runs without clocks -/

/-- A configuration, the clocks left out. -/
def untimed (c : Config) : Service.Config := c.map TimedWorld.toWorld TimedCall.call

/-- The deletion that precedes a read of an entry whose time is over. -/
def purge (w : TimedWorld) (call : Call) : List Service.Action :=
  match call.getting with
  | some key => if w.expiresAt key ≤ w.db.now then [.env (.expire key)] else []
  | none => []

/-- What an action is in the service without clocks. -/
def actionsOf (c : Config) : Action → List Service.Action
  | .spawn i p => [.spawn i p.call]
  | .step i label =>
      ((c.threads i).map fun p => purge c.shared p.call).getD [] ++ [.step i label]
  | .env x => [.env x]

section

variable {deps : Deps} {c c' : Config} {a : Action} {init : World → Prop}

theorem execAll_purge (d : Service.Config) (w : TimedWorld) (call : Call)
    (hd : d.shared = w.toWorld) :
    ((Service.program deps).system init).execAll d (purge w call) =
      some { d with shared := w.seenBy call } := by
  rw [purge, TimedWorld.seenBy]
  split
  · rw [TimedWorld.purged]
    split
    · simp only [System.execAll, Program.system_exec, Program.exec, Service.program, Service.event,
        hd, Option.map_some, Option.bind_some]
    · rw [System.execAll, ← hd]
  · rw [System.execAll, ← hd]

/-- An action with clocks is one without, a deletion of what it finds expired before it. -/
theorem untimed_exec (h : (program deps).exec c a = some c') :
    ((Service.program deps).system init).execAll (untimed c) (actionsOf c a) =
      some (untimed c') := by
  obtain ⟨i, p, rfl, hi, rfl⟩ | ⟨i, label, p, w', p', rfl, hi, hstep, rfl⟩ |
    ⟨x, w', rfl, hevent, rfl⟩ := Program.exec_cases h
  · have hfree : (untimed c).threads i = none := congrArg (Option.map TimedCall.call) hi
    simp only [actionsOf, System.execAll, Program.system_exec, Program.exec, hfree,
      Option.bind_some]
    exact congrArg (fun threads => some (Lib.Config.mk c.shared.toWorld threads))
      (Program.update_map TimedCall.call c.threads i p)
  · obtain ⟨⟨world, call⟩, hservice, heq⟩ := Option.map_eq_some_iff.mp hstep
    obtain ⟨rfl, rfl⟩ := Prod.mk.inj heq
    have hcall : (untimed c).threads i = some p.call := congrArg (Option.map TimedCall.call) hi
    rw [actionsOf, hi, Option.map_some, Option.getD_some, System.execAll_append,
      execAll_purge (untimed c) c.shared p.call rfl, Option.bind_some]
    simp only [System.execAll, Program.system_exec, Program.exec, hcall, Service.program,
      hservice, Option.map_some, Option.bind_some]
    exact congrArg (fun threads => some (Lib.Config.mk world threads))
      (Program.update_map TimedCall.call c.threads i ⟨call, c.shared.db.now⟩)
  · obtain ⟨world, hworld, rfl⟩ := Option.map_eq_some_iff.mp hevent
    have hshared : Service.event (untimed c).shared x = some world := hworld
    simp only [actionsOf, System.execAll, Program.system_exec, Program.exec, Service.program,
      hshared, Option.map_some, Option.bind_some]
    rfl

/-- What clocks add is when entries go: a run with them is one of the service without. -/
theorem untimed_run {G : Config → Action → Prop} {as : List Action}
    (hrun : ((program deps).system fun w => init w.toWorld).Run G c as c') :
    ∃ bs, ((Service.program deps).system init).execAll (untimed c) bs = some (untimed c') := by
  induction hrun with
  | nil c => exact ⟨[], rfl⟩
  | @cons c d e a as hguard hexec _ ih =>
      obtain ⟨bs, hbs⟩ := ih
      refine ⟨actionsOf c a ++ bs, ?_⟩
      rw [System.execAll_append, untimed_exec hexec, Option.bind_some, hbs]

end

/-! ### The invariant -/

/-- What is in the cache, and what is about to be set there, was in the table at
some time of the past, and not too long ago. -/
structure LifetimeInv (delta : ℤ) (past : List Config) (c : Config) : Prop where
  entries : ∀ key value, c.shared.redis key = some value → ∃ d ∈ past,
    CurrentValue d.shared.db key value ∧
      c.shared.expiresAt key ≤ d.shared.db.now + delta + value.lifetime
  settings : ∀ i p key value, c.threads i = some p → p.call.setting = some (key, value) →
    ∃ d ∈ past, CurrentValue d.shared.db key value ∧ p.steppedAt ≤ d.shared.db.now

section

variable {deps : Deps} {delta : ℤ} {past : List Config} {c c' : Config} {a : Action}

theorem LifetimeInv.longer (hinv : LifetimeInv delta past c) (more : List Config) :
    LifetimeInv delta (past ++ more) c := by
  refine ⟨fun key value hvalue => ?_, fun i p key value hi hsetting => ?_⟩
  · obtain ⟨d, hd, h⟩ := hinv.entries key value hvalue
    exact ⟨d, List.mem_append_left _ hd, h⟩
  · obtain ⟨d, hd, h⟩ := hinv.settings i p key value hi hsetting
    exact ⟨d, List.mem_append_left _ hd, h⟩

/-- A call finds the tables as they are, and no entry that is not there. -/
theorem seenBy_db (w : TimedWorld) (call : Call) : (w.seenBy call).db = w.db := by
  rw [TimedWorld.seenBy]
  split
  · rw [TimedWorld.purged]
    split <;> rfl
  · rfl

theorem seenBy_redis {w : TimedWorld} {call : Call} {key : String} {value : CacheValue}
    (h : (w.seenBy call).redis key = some value) : w.redis key = some value := by
  rw [TimedWorld.seenBy] at h
  split at h
  · rw [TimedWorld.purged] at h
    split at h
    · simp only [Redis.del] at h
      split at h
      · exact absurd h (by simp)
      · exact h
    · exact h
  · exact h

theorem written_setting {call : Call} {label : Label} {key : String} {value : CacheValue}
    (h : call.written label = some (key, value)) : call.setting = some (key, value) := by
  cases label with
  | fail => exact absurd h (by simp [Call.written])
  | _ => exact h

theorem LifetimeInv.step (hinv : LifetimeInv delta past c) (hpast : c ∈ past)
    (hguard : SetsWithin delta c a) (hexec : (program deps).exec c a = some c') :
    LifetimeInv delta past c' := by
  obtain ⟨i, p, rfl, hi, rfl⟩ | ⟨i, label, p, w', p', rfl, hi, hstep, rfl⟩ |
    ⟨x, w', rfl, hevent, rfl⟩ := Program.exec_cases hexec
  · refine ⟨hinv.entries, fun j q key value hj hsetting => ?_⟩
    obtain ⟨rfl, rfl⟩ | ⟨_, hj⟩ := Program.update_cases hj
    · exact absurd (Call.Initial.setting hguard ▸ hsetting) (by simp)
    · exact hinv.settings j q key value hj hsetting
  · obtain ⟨⟨world, call⟩, hservice, heq⟩ := Option.map_eq_some_iff.mp hstep
    obtain ⟨rfl, rfl⟩ := Prod.mk.inj heq
    constructor
    · intro key value hvalue
      cases step_redisEffect hservice with
      | @set key' value' hwritten hredis =>
          show ∃ d ∈ past, _ ∧ c.shared.expiresAfter (p.call.written label) key ≤ _
          have hvalue : (c.shared.seenBy p.call).redis.set key' value' key = some value :=
            hredis ▸ hvalue
          rw [hwritten, TimedWorld.expiresAfter]
          by_cases hkey : key = key'
          · -- The entry that has just been set.
            subst hkey
            rw [Redis.set, Function.update_self] at hvalue
            obtain rfl := Option.some.inj hvalue
            obtain ⟨d, hd, hcurrent, hread⟩ :=
              hinv.settings i p key value' hi (written_setting hwritten)
            have hwithin := hguard p hi (by rw [hwritten]; simp)
            refine ⟨d, hd, hcurrent, ?_⟩
            rw [Function.update_self]
            omega
          · rw [Redis.set, Function.update_of_ne hkey] at hvalue
            rw [Function.update_of_ne hkey]
            exact hinv.entries key value (seenBy_redis hvalue)
      | kept hwritten hredis =>
          show ∃ d ∈ past, _ ∧ c.shared.expiresAfter (p.call.written label) key ≤ _
          rw [hwritten, TimedWorld.expiresAfter]
          exact hinv.entries key value (seenBy_redis (hredis key value hvalue))
    · intro j q key value hj hsetting
      obtain ⟨_, rfl⟩ | ⟨_, hj⟩ := Program.update_cases hj
      · refine ⟨c, hpast, ?_, le_rfl⟩
        rw [← seenBy_db c.shared p.call]
        exact step_setting hservice hsetting
      · exact hinv.settings j q key value hj hsetting
  · obtain ⟨world, hworld, rfl⟩ := Option.map_eq_some_iff.mp hevent
    refine ⟨fun key value hvalue => ?_, hinv.settings⟩
    cases x with
    | expire key' =>
        obtain rfl := Option.some.inj hworld
        simp only [Redis.del] at hvalue
        split at hvalue
        · exact absurd hvalue (by simp)
        · exact hinv.entries key value hvalue
    | tick ms =>
        obtain rfl := Option.some.inj hworld
        exact hinv.entries key value hvalue

theorem lifetimeInv_of_run {c₀ : Config} {as : List Action} (hinit : (system deps).init c₀)
    (hrun : (system deps).Run (SetsWithin delta) c₀ as c) :
    LifetimeInv delta ((system deps).passed c₀ as) c := by
  refine hrun.history ?_ fun past c a c' hpast hinv hguard hexec =>
    (hinv.step hpast hguard hexec).longer [c']
  obtain ⟨hempty, hidle⟩ := hinit
  refine ⟨fun key value hvalue => ?_, fun i p key value hi => ?_⟩
  · rw [hempty] at hvalue
    exact absurd hvalue (by simp)
  · exact absurd ((hidle i).symm.trans hi) (by simp)

/-- In every run in which what is read is set within `delta` milliseconds: what
the resolve cache returns the table held at some time within the last minute and
`delta`, and what the list cache returns within the last half minute and `delta`,
however links, unlinks and readers have been interleaved. -/
theorem staleness_bounded {c₀ : Config} {as : List Action} (hinit : (system deps).init c₀)
    (hrun : (system deps).Run (SetsWithin delta) c₀ as c) :
    (∀ pair s, c.shared.entry (identityCacheKey pair.1 pair.2) = some (.text s) →
        ∃ d ∈ (system deps).passed c₀ as, s = (mapping d.shared.db pair).getD "" ∧
          c.shared.db.now < d.shared.db.now + delta + 60000) ∧
      ∀ user rows, c.shared.entry (identityListCacheKey user) = some (.identities rows) →
        ∃ d ∈ (system deps).passed c₀ as, rows.Perm (identitiesOf d.shared.db user) ∧
          c.shared.db.now < d.shared.db.now + delta + 30000 := by
  have hinv := lifetimeInv_of_run hinit hrun
  have hlive {key : String} {value : CacheValue} (h : c.shared.entry key = some value) :
      c.shared.db.now < c.shared.expiresAt key ∧ c.shared.redis key = some value := by
    rw [TimedWorld.entry] at h
    split at h
    · exact absurd h (by simp)
    · rename_i hnot
      exact ⟨Int.not_le.mp hnot, h⟩
  refine ⟨fun pair s h => ?_, fun user rows h => ?_⟩
  · obtain ⟨htime, hvalue⟩ := hlive h
    obtain ⟨d, hd, hcurrent, hbound⟩ := hinv.entries _ _ hvalue
    refine ⟨d, hd, CurrentValue.text_iff.mp hcurrent, ?_⟩
    exact htime.trans_le hbound
  · obtain ⟨htime, hvalue⟩ := hlive h
    obtain ⟨d, hd, hcurrent, hbound⟩ := hinv.entries _ _ hvalue
    exact ⟨d, hd, CurrentValue.identities_iff.mp hcurrent, htime.trans_le hbound⟩

end

/-! ### A deletion that races with a reader -/

/-- Reader 0 selects, link 1 commits and deletes, reader 0 sets what it has
read, and the minute passes but for a millisecond. -/
def racingActions : List Action :=
  [.spawn 0 ⟨.resolve (.get samplePair), freshWorld.db.now⟩, .step 0 (.ok 0), .step 0 (.ok 0),
    .spawn 1 ⟨.link (.commit samplePair sampleUser "internal-api"), freshWorld.db.now⟩,
    .step 1 (.ok 0), .step 1 (.ok 0), .step 0 (.ok 0), .env (.tick 59999)]

def noTimedCalls : Config := ⟨{ freshWorld with expiresAt := fun _ => 0 }, fun _ => none⟩

def afterRace : Config := ((system sampleDeps).execAll noTimedCalls racingActions).getD noTimedCalls

/-- The bound is met: the link is done, and up to the end of the minute the
cache has no mapping for its pair. -/
theorem staleness_bounded_race :
    afterRace.shared.entry (identityCacheKey samplePair.1 samplePair.2) = some (.text "") ∧
      mapping afterRace.shared.db samplePair = some sampleUser ∧
      ∃ d ∈ (system sampleDeps).passed noTimedCalls racingActions,
        "" = (mapping d.shared.db samplePair).getD "" ∧
          afterRace.shared.db.now < d.shared.db.now + 0 + 60000 := by
  have hrun : (system sampleDeps).Run (SetsWithin 0) noTimedCalls racingActions afterRace := by
    have hprompt {c : Config} {i : ℕ} {label : Label} {p : TimedCall} (hi : c.threads i = some p)
        (hnow : c.shared.db.now = p.steppedAt) : SetsWithin 0 c (.step i label) := by
      rintro q hq -
      obtain rfl := Option.some.inj (hi.symm.trans hq)
      omega
    refine .cons (.resolve _) rfl (.cons (hprompt rfl rfl) rfl (.cons (hprompt rfl rfl) rfl ?_))
    refine .cons (.link _ _ _) rfl (.cons (hprompt rfl rfl) rfl (.cons (hprompt rfl rfl) rfl ?_))
    exact .cons (hprompt rfl rfl) rfl (.cons trivial rfl (.nil _))
  have hentry : afterRace.shared.entry (identityCacheKey samplePair.1 samplePair.2) =
      some (.text "") := rfl
  exact ⟨hentry, rfl, (staleness_bounded ⟨rfl, fun _ => rfl⟩ hrun).1 samplePair "" hentry⟩

end Timed

end PureplayIngest
