import PureplayIngest.Identity.LinkRequests

/-!
Which link an answer is about.

The handler answers a request with the row it has linked for it. The cache is
keyed on path and `Idempotency-Key` alone, so what is replayed is the answer to
the first request with that path and key, whatever the body of this one is.
-/

namespace PureplayIngest.Identity.LinkRequests

open Shared.Domain Shared.Kysely Lib Webhooks

def requestOf : RequestState → LinkRequest
  | .lookup request _ => request
  | .handling request _ _ => request
  | .answered request _ _ _ _ => request
  | .replayed request _ _ => request
  | .badRequest request => request
  | .failed request => request

/-- The 2xx response that has been sent. -/
def responseOf : RequestState → Option CachedResponse
  | .answered _ _ response _ _ => some response
  | .replayed _ _ response => some response
  | _ => none

/-- The row names a request's vendor user, and the canonical user of its path. -/
def Names (router : Router) (request : LinkRequest) (row : VendorIdentity) : Prop :=
  pairOf row = request.pair ∧ row.canonical_user_id = router.canonical_user_id request.url

/-- The request's link has returned with the row: it has made its commit and its DEL. -/
def Returned (router : Router) (request : LinkRequest) (row : VendorIdentity) (call : LinkState) :
    Prop :=
  call = .backfill request.pair (router.canonical_user_id request.url) row ∨
    ∃ backfilled,
      call = .finished request.pair (router.canonical_user_id request.url) row backfilled

/-- The request is answered 201 by its own handler, with a row that names its
user, after the link of just that user has returned. -/
def AnsweredItself (router : Router) (s : RequestState) (response : CachedResponse) : Prop :=
  ∃ cacheKey pendingSet call, s = .answered (requestOf s) cacheKey response pendingSet call ∧
    response.status = 201 ∧ Names router (requestOf s) response.body ∧
    Returned router (requestOf s) response.body call

/-- The request has a key, and with its path it makes this cache key. -/
def HasCacheKey (router : Router) (request : LinkRequest) (cacheKey : String) : Prop :=
  ∃ key, request.idempotencyKey = some key ∧
    cacheKey = buildCacheKey key (router.pathname request.url)

/-- Both requests have a key, and their cache keys are the same. -/
def SameCacheKey (router : Router) (a b : LinkRequest) : Prop :=
  ∃ cacheKey, HasCacheKey router a cacheKey ∧ HasCacheKey router b cacheKey

/-! ### The row a link returns -/

theorem upsertIdentity_names (db : Database) (pair : Vendor × String) (c : String) :
    pairOf (upsertIdentity db pair c).2 = pair ∧
      (upsertIdentity db pair c).2.canonical_user_id = c := by
  rw [upsertIdentity]
  split
  · rename_i existing hfind
    have hpair : pairOf existing = pair := by simpa using List.find?_some hfind
    exact ⟨hpair, rfl⟩
  · exact ⟨rfl, rfl⟩

theorem linkTransaction_names {db db' : Database} {pair : Vendor × String} {c actor : String}
    {row : VendorIdentity} (h : linkTransaction db pair c actor = some (db', row)) :
    pairOf row = pair ∧ row.canonical_user_id = c := by
  rw [linkTransaction] at h
  split at h
  · obtain ⟨_, rfl⟩ := Prod.mk.inj (Option.some.inj h)
    exact upsertIdentity_names db pair c
  · exact absurd h (by simp)

/-! ### What a request knows -/

/-- The link of a request that is being handled: it is for the request's own user. -/
inductive Handling (router : Router) (request : LinkRequest) : LinkState → Prop
  | commit : Handling router request (linkIdentity router request)
  | del {row : VendorIdentity} (hrow : Names router request row) :
      Handling router request (.del request.pair (router.canonical_user_id request.url) row)

def RequestInv (router : Router) : RequestState → Prop
  | .lookup request cacheKey => HasCacheKey router request cacheKey
  | .handling request cacheKey call =>
      Handling router request call ∧ ∀ key, cacheKey = some key → HasCacheKey router request key
  | .answered request cacheKey response _ call =>
      (∀ key, cacheKey = some key → HasCacheKey router request key) ∧
        response.status = 201 ∧ Names router request response.body ∧
        Returned router request response.body call
  | .replayed request cacheKey _ => HasCacheKey router request cacheKey
  | _ => True

section

variable {router : Router} {w w' : HttpWorld} {s s' : RequestState} {label : RequestLabel}

theorem requestInv_intercept (request : LinkRequest) :
    RequestInv router (intercept router request) := by
  rw [intercept]
  split
  · exact ⟨.commit, fun _ h => absurd h (by simp)⟩
  · rename_i key hkey
    split
    · exact ⟨.commit, fun _ h => absurd h (by simp)⟩
    · split
      · trivial
      · exact ⟨key, hkey, rfl⟩

theorem Step.requestInv (h : Step router w s label w' s') (hinv : RequestInv router s) :
    RequestInv router s' := by
  cases h with
  | hit request hcached => exact hinv
  | miss request hcached =>
      refine ⟨.commit, fun key hkey => ?_⟩
      obtain rfl := Option.some.inj hkey
      exact hinv
  | uncached request cacheKey => exact ⟨.commit, fun _ h => absurd h (by simp)⟩
  | handler request cacheKey hcall =>
      obtain ⟨hhandling, hkey⟩ := hinv
      cases hhandling with
      | commit =>
          obtain ⟨⟨db, row⟩, hlink, heq⟩ := Option.map_eq_some_iff.mp hcall
          obtain ⟨rfl, rfl⟩ := Prod.mk.inj heq
          exact ⟨.del (linkTransaction_names hlink), hkey⟩
      | del hrow =>
          obtain ⟨rfl, rfl⟩ := Prod.mk.inj (Option.some.inj hcall)
          exact ⟨hkey, rfl, hrow, .inl rfl⟩
  | fail request cacheKey call => trivial
  | set request cacheKey response call => exact hinv
  | setFail request cacheKey response call => exact hinv
  -- The backfill goes on after the response; how it ends does not show in it.
  | backfill request cacheKey response pendingSet pair c row =>
      obtain ⟨hkey, hstatus, hnames, hreturned⟩ := hinv
      obtain heq | ⟨_, heq⟩ := hreturned
      · obtain ⟨rfl, rfl, rfl⟩ := LinkState.backfill.inj heq
        exact ⟨hkey, hstatus, hnames, .inr ⟨true, rfl⟩⟩
      · exact absurd heq (by simp)
  | backfillFail request cacheKey response pendingSet pair c row =>
      obtain ⟨hkey, hstatus, hnames, hreturned⟩ := hinv
      obtain heq | ⟨_, heq⟩ := hreturned
      · obtain ⟨rfl, rfl, rfl⟩ := LinkState.backfill.inj heq
        exact ⟨hkey, hstatus, hnames, .inr ⟨false, rfl⟩⟩
      · exact absurd heq (by simp)

/-- A request that is answered stays so. -/
theorem Step.stays_answered {request : LinkRequest} {cacheKey : Option String}
    {response : CachedResponse} {pendingSet : Bool} {call : LinkState}
    (h : Step router w (.answered request cacheKey response pendingSet call) label w' s') :
    ∃ pendingSet' call', s' = .answered request cacheKey response pendingSet' call' := by
  cases h with
  | set request cacheKey response call => exact ⟨_, _, rfl⟩
  | setFail request cacheKey response call => exact ⟨_, _, rfl⟩
  | backfill request cacheKey response pendingSet pair c row => exact ⟨_, _, rfl⟩
  | backfillFail request cacheKey response pendingSet pair c row => exact ⟨_, _, rfl⟩

end

/-! ### Histories -/

/-- Some request with this cache key is answered so by its own handler. -/
def Origin (c : Config) (cacheKey : String) (response : CachedResponse) : Prop :=
  ∃ i request pendingSet call,
    c.threads i = some (.answered request (some cacheKey) response pendingSet call)

structure HistoryInv (router : Router) (c : Config) : Prop where
  requests : ∀ i s, c.threads i = some s → RequestInv router s
  entries : ∀ cacheKey response, c.shared.responses cacheKey = some response →
    Origin c cacheKey response
  replays : ∀ i request cacheKey response,
    c.threads i = some (.replayed request cacheKey response) →
    Origin c cacheKey response

section

variable {router : Router} {c c' : Config} {a : Action}

theorem Origin.exec {cacheKey : String} {response : CachedResponse}
    (h : Origin c cacheKey response) (hexec : (program router).exec c a = some c') :
    Origin c' cacheKey response := by
  obtain ⟨j, request, pendingSet, call, hj⟩ := h
  obtain ⟨i, p, rfl, hi, rfl⟩ | ⟨i, label, s, w', s', rfl, hi, hstep, rfl⟩ | ⟨x, w', rfl, _, rfl⟩ :=
    Program.exec_cases hexec
  · have hji : j ≠ i := by
      rintro rfl
      exact absurd (hi.symm.trans hj) (by simp)
    exact ⟨j, request, pendingSet, call, (Function.update_of_ne hji ..).trans hj⟩
  · by_cases hji : j = i
    · subst hji
      obtain rfl := Option.some.inj (hi.symm.trans hj)
      obtain ⟨pendingSet', call', rfl⟩ := (step_cases hstep).stays_answered
      exact ⟨j, request, pendingSet', call', Function.update_self ..⟩
    · exact ⟨j, request, pendingSet, call, (Function.update_of_ne hji ..).trans hj⟩
  · exact ⟨j, request, pendingSet, call, hj⟩

/-- What is replayed is the entry. -/
theorem Step.replays {w w' : HttpWorld} {s s' : RequestState} {label : RequestLabel}
    (h : Step router w s label w' s') {request : LinkRequest} {cacheKey : String}
    {response : CachedResponse} (heq : s' = .replayed request cacheKey response) :
    w.responses cacheKey = some response := by
  cases h with
  | hit request hcached =>
      obtain ⟨_, rfl, rfl⟩ := RequestState.replayed.inj heq
      exact hcached
  | @handler request cacheKey call call' stores hcall =>
      cases call' <;> exact absurd heq (by simp [afterLink])
  | _ => exact absurd heq (by simp)

/-- An entry that is there after a step was there before, or is that of an
answered request. -/
theorem Step.entries {w w' : HttpWorld} {s s' : RequestState} {label : RequestLabel}
    (h : Step router w s label w' s') {cacheKey : String} {response : CachedResponse}
    (hentry : w'.responses cacheKey = some response) :
    w.responses cacheKey = some response ∨
      ∃ request call, s = .answered request (some cacheKey) response true call := by
  cases h with
  | set request key response' call =>
      change Function.update w.responses key (some response') cacheKey = some response at hentry
      by_cases hkey : cacheKey = key
      · subst hkey
        rw [Function.update_self] at hentry
        obtain rfl := Option.some.inj hentry
        exact .inr ⟨request, call, rfl⟩
      · rw [Function.update_of_ne hkey] at hentry
        exact .inl hentry
  | _ => exact .inl hentry

theorem HistoryInv.step (hinv : HistoryInv router c) (hstart : Starts router a)
    (hexec : (program router).exec c a = some c') : HistoryInv router c' := by
  -- Runs only grow, so where a response came from stays on record.
  have horigin {cacheKey : String} {response : CachedResponse}
      (h : Origin c cacheKey response) : Origin c' cacheKey response := h.exec hexec
  obtain ⟨i, p, rfl, hi, rfl⟩ | ⟨i, label, s, w', s', rfl, hi, hstep, rfl⟩ |
    ⟨x, w', rfl, hevent, rfl⟩ := Program.exec_cases hexec
  · obtain ⟨request, rfl⟩ := hstart
    have hinv' : RequestInv router (intercept router request) := requestInv_intercept request
    refine ⟨fun j s hj => ?_, fun key response h => horigin (hinv.entries key response h),
      fun j request' key response hj => ?_⟩
    · obtain ⟨_, rfl⟩ | ⟨_, hj⟩ := Program.update_cases hj
      · exact hinv'
      · exact hinv.requests j s hj
    · obtain ⟨_, heq⟩ | ⟨_, hj⟩ := Program.update_cases hj
      · rw [intercept] at heq
        split at heq
        · exact absurd heq (by simp)
        · split at heq
          · exact absurd heq (by simp)
          · split at heq <;> exact absurd heq (by simp)
      · exact horigin (hinv.replays j request' key response hj)
  · have hcases := step_cases hstep
    refine ⟨fun j t hj => ?_, fun key response hentry => ?_, fun j request key response hj => ?_⟩
    · obtain ⟨_, rfl⟩ | ⟨_, hj⟩ := Program.update_cases hj
      · exact hcases.requestInv (hinv.requests i s hi)
      · exact hinv.requests j t hj
    · obtain hentry | ⟨request, call, rfl⟩ := hcases.entries hentry
      · exact horigin (hinv.entries key response hentry)
      · exact horigin ⟨i, request, true, call, hi⟩
    · obtain ⟨_, heq⟩ | ⟨_, hj⟩ := Program.update_cases hj
      · exact horigin (hinv.entries key response (hcases.replays heq))
      · exact horigin (hinv.replays j request key response hj)
  · refine ⟨hinv.requests, fun key response hentry => ?_, fun j request key response hj =>
      horigin (hinv.replays j request key response hj)⟩
    cases x with
    | expire cacheKey =>
        obtain rfl := Option.some.inj hevent
        change Function.update c.shared.responses cacheKey none key = some response at hentry
        by_cases hkey : key = cacheKey
        · subst hkey
          rw [Function.update_self] at hentry
          exact absurd hentry (by simp)
        · rw [Function.update_of_ne hkey] at hentry
          exact horigin (hinv.entries key response hentry)
    | others stores =>
        obtain rfl := Option.some.inj hevent
        exact horigin (hinv.entries key response hentry)

theorem historyInv_of_reach (h : (system router).Reach (fun _ => Starts router) c) :
    HistoryInv router c := by
  refine h.invariant (fun c₀ ⟨hempty, hidle⟩ => ?_) fun _ _ _ hinv hstart hexec =>
    hinv.step hstart hexec
  have hnone {i : ℕ} {s : RequestState} : c₀.threads i ≠ some s := fun hi =>
    absurd ((hidle i).symm.trans hi) (by simp)
  exact ⟨fun i s hi => absurd hi hnone,
    fun key response h => absurd ((hempty key).symm.trans h) (by simp),
    fun i request key response hi => absurd hi hnone⟩

end

/-! ### A key that is used for another body -/

/-- Nothing of the request is left to be done. -/
def isSettled : RequestState → Bool
  | .answered _ _ _ pendingSet call =>
      !pendingSet && match call with
        | .finished _ _ _ _ => true
        | _ => false
  | .replayed _ _ _ => true
  | .badRequest _ => true
  | .failed _ => true
  | _ => false

/-- One request after the other. -/
def Sequential (c : Config) : Action → Prop
  | .spawn _ _ => ∀ j s, c.threads j = some s → isSettled s = true
  | _ => True

def golferRouter : Router where
  pathname url := url
  canonical_user_id url := if url = "/v1/users/golfer-1/identities" then "golfer-1" else ""

def playerRequest (vendor_user_id : ZString 1 255) : LinkRequest where
  url := "/v1/users/golfer-1/identities"
  idempotencyKey := some "0b9f6a1e-7a53-4c0a-9d6b-52a1c8f0e3d7"
  body := ⟨.trackpro, vendor_user_id⟩

def firstRequest : LinkRequest := playerRequest ⟨"tp-user-1", by decide, by decide⟩

def otherRequest : LinkRequest := playerRequest ⟨"tp-user-2", by decide, by decide⟩

def noRequests : Config where
  shared :=
    { db := Database.empty 1710498600000, redis := fun _ => none, responses := fun _ => none }
  threads := fun _ => none

/-- The first request is made, and then the other one, with the same key. -/
def replayActions : List Action :=
  [.spawn 0 (intercept golferRouter firstRequest), .step 0 .get, .step 0 .handler, .step 0 .handler,
    .step 0 .set, .step 0 .backfill,
    .spawn 1 (intercept golferRouter otherRequest), .step 1 .get]

def afterReplay : Config := ((system golferRouter).execAll noRequests replayActions).getD noRequests

/-- The row of the first request's link. -/
def firstRow : VendorIdentity where
  id := 1
  vendor := .trackpro
  vendor_user_id := "tp-user-1"
  canonical_user_id := "golfer-1"
  created_at := 1710498600000
  updated_at := 1710498600000

theorem run_replayActions : (system golferRouter).Run
    (fun c a => Starts golferRouter a ∧ Sequential c a) noRequests replayActions afterReplay := by
  have hsettled : ((system golferRouter).execAll noRequests (replayActions.take 6)).map
      (fun d => (d.threads 0).map isSettled) = some (some true) := by
    decide
  refine System.run_of_guards (by decide) fun k a d ha hd => ?_
  obtain _ | _ | _ | _ | _ | _ | _ | _ | k := k
  · obtain rfl := Option.some.inj ha
    obtain rfl := Option.some.inj hd
    exact ⟨⟨firstRequest, rfl⟩, fun j s hj => absurd hj (by simp [noRequests])⟩
  iterate 5
    · obtain rfl := Option.some.inj ha
      exact ⟨trivial, trivial⟩
  · obtain rfl := Option.some.inj ha
    refine ⟨⟨otherRequest, rfl⟩, fun j s hj => ?_⟩
    rw [hd, Option.map_some, Option.some_inj] at hsettled
    cases j with
    | zero =>
        rw [hj, Option.map_some, Option.some_inj] at hsettled
        exact hsettled
    | succ j =>
        have hnone : d.threads (j + 1) = none := Program.threads_of_execAll hd rfl fun p hp => by
          simp [replayActions] at hp
        exact absurd (hnone.symm.trans hj) (by simp)
  · obtain rfl := Option.some.inj ha
    exact ⟨trivial, trivial⟩
  · exact absurd ha (by simp [replayActions])

theorem afterReplay_answer :
    afterReplay.threads 1 = some (.replayed otherRequest
      (buildCacheKey "0b9f6a1e-7a53-4c0a-9d6b-52a1c8f0e3d7" "/v1/users/golfer-1/identities")
      ⟨201, firstRow⟩) := by
  rfl

end PureplayIngest.Identity.LinkRequests
