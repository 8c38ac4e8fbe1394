import PureplayIngest.Identity.LinkReplays

/-!
At most one execution for each `Idempotency-Key`.

The entry of a key is written when the handler has answered. A retry that makes
its GET before that does not find it and runs the handler again. When no request
makes its GET while another one with its cache key is between its own GET and its
SET, the handler succeeds once and everybody is sent the same answer.
-/

namespace PureplayIngest.Identity.LinkRequests

open Shared.Domain Shared.Kysely Lib Webhooks

/-- The request has found no entry, and has not written its own yet. -/
def Busy (cacheKey : String) : RequestState → Prop
  | .handling _ key _ => key = some cacheKey
  | .answered _ key _ pendingSet _ => key = some cacheKey ∧ pendingSet = true
  | _ => False

instance (cacheKey : String) (s : RequestState) : Decidable (Busy cacheKey s) :=
  match s with
  | .lookup _ _ => inferInstanceAs (Decidable False)
  | .handling _ key _ => inferInstanceAs (Decidable (key = some cacheKey))
  | .answered _ key _ pendingSet _ =>
      inferInstanceAs (Decidable (key = some cacheKey ∧ pendingSet = true))
  | .replayed _ _ _ => inferInstanceAs (Decidable False)
  | .badRequest _ => inferInstanceAs (Decidable False)
  | .failed _ => inferInstanceAs (Decidable False)

/-- The handler of a request with the cache key has completed successfully. -/
def Executed (cacheKey : String) : RequestState → Prop
  | .answered _ key _ _ _ => key = some cacheKey
  | _ => False

/-- A request with the cache key has been sent the response. -/
def Sent (cacheKey : String) (response : CachedResponse) : RequestState → Prop
  | .answered _ key own _ _ => key = some cacheKey ∧ own = response
  | .replayed _ key cached => key = cacheKey ∧ cached = response
  | _ => False

/-- Redis is available, and the entries stay for the window. -/
def RedisAvailable : Action → Prop
  | .step _ .getFail => False
  | .step _ .setFail => False
  | .env (.expire _) => False
  | _ => True

/-- The condition under which the handler succeeds once: no request makes its
GET while another one with its cache key is between its own GET and its SET. -/
def NoOverlap (c : Config) : Action → Prop
  | .step i .get => ∀ request cacheKey, c.threads i = some (.lookup request cacheKey) →
      ∀ j s, c.threads j = some s → ¬ Busy cacheKey s
  | _ => True

def OnceGuard (router : Router) (c : Config) (a : Action) : Prop :=
  Starts router a ∧ RedisAvailable a ∧ NoOverlap c a

/-! ### The moving request -/

section

variable {router : Router} {w w' : HttpWorld} {s s' : RequestState} {label : RequestLabel}
  {cacheKey : String} {response : CachedResponse}

theorem intercept_idle (router : Router) (cacheKey : String) (request : LinkRequest) :
    ¬ Busy cacheKey (intercept router request) ∧ ¬ Executed cacheKey (intercept router request) ∧
      ∀ response, ¬ Sent cacheKey response (intercept router request) := by
  rw [intercept]
  split
  · simp [Busy, Executed, Sent]
  · split
    · simp [Busy, Executed, Sent]
    · split <;> simp [Busy, Executed, Sent]

/-- A request is busy from a GET that finds no entry. -/
theorem Step.busy (h : Step router w s label w' s') (hbusy : Busy cacheKey s') :
    Busy cacheKey s ∨ label = .get ∧ w.responses cacheKey = none ∧
      ∃ request, s = .lookup request cacheKey := by
  cases h with
  | hit request hcached => exact hbusy.elim
  | miss request hcached =>
      obtain rfl := Option.some.inj hbusy
      exact .inr ⟨rfl, hcached, request, rfl⟩
  | uncached request key => exact absurd hbusy (by simp [Busy])
  | @handler request key call call' stores hcall =>
      cases call' with
      | backfill pair c row => exact .inl hbusy.1
      | _ => exact .inl hbusy
  | fail request key call => exact hbusy.elim
  | set request key response call => exact absurd hbusy.2 (by simp)
  | setFail request key response call => exact absurd hbusy.2 (by simp)
  | backfill request key response pendingSet pair c row => exact .inl hbusy
  | backfillFail request key response pendingSet pair c row => exact .inl hbusy

theorem Step.executed (h : Step router w s label w' s') (hexecuted : Executed cacheKey s') :
    Executed cacheKey s ∨ Busy cacheKey s := by
  cases h with
  | @handler request key call call' stores hcall =>
      cases call' with
      | backfill pair c row => exact .inr hexecuted
      | _ => exact hexecuted.elim
  | set request key response call => exact .inl hexecuted
  | setFail request key response call => exact .inl hexecuted
  | backfill request key response pendingSet pair c row => exact .inl hexecuted
  | backfillFail request key response pendingSet pair c row => exact .inl hexecuted
  | _ => exact hexecuted.elim

/-- Entries are written by the SET of a busy request. -/
theorem Step.responses (h : Step router w s label w' s') (cacheKey : String) :
    w'.responses cacheKey = w.responses cacheKey ∨ Busy cacheKey s ∧ ¬ Busy cacheKey s' := by
  cases h with
  | set request key response call =>
      by_cases hkey : cacheKey = key
      · subst hkey
        exact .inr ⟨⟨rfl, rfl⟩, fun hbusy => absurd hbusy.2 (by simp)⟩
      · exact .inl (Function.update_of_ne hkey ..)
  | _ => exact .inl rfl

/-- What a request has been sent is the entry, or the answer of a handler whose SET is pending. -/
def SentInv (w : HttpWorld) (s : RequestState) : Prop :=
  ∀ cacheKey response, Sent cacheKey response s →
    w.responses cacheKey = some response ∨ Busy cacheKey s

theorem Step.sent (h : Step router w s label w' s') (havailable : label ≠ .setFail)
    (hinv : SentInv w s) : SentInv w' s' := by
  intro cacheKey response hsent
  cases h with
  | hit request hcached =>
      obtain ⟨rfl, rfl⟩ := hsent
      exact .inl hcached
  | @handler request key call call' stores hcall =>
      cases call' with
      | backfill pair c row =>
          obtain ⟨rfl, _⟩ := hsent
          exact .inr ⟨rfl, rfl⟩
      | _ => exact hsent.elim
  | set request key own call =>
      obtain ⟨hkey, rfl⟩ := hsent
      obtain rfl := Option.some.inj hkey
      exact .inl (Function.update_self ..)
  | setFail request key own call => exact absurd rfl havailable
  | backfill request key own pendingSet pair c row => exact hinv cacheKey response hsent
  | backfillFail request key own pendingSet pair c row => exact hinv cacheKey response hsent
  | _ => exact hsent.elim

end

/-! ### All requests -/

structure OnceInv (c : Config) : Prop where
  busy : ∀ i j s t cacheKey, c.threads i = some s → c.threads j = some t →
    Busy cacheKey s → Busy cacheKey t → i = j
  missing : ∀ i s cacheKey, c.threads i = some s → Busy cacheKey s →
    c.shared.responses cacheKey = none
  sent : ∀ i s, c.threads i = some s → SentInv c.shared s
  executed : ∀ i j s t cacheKey, c.threads i = some s → c.threads j = some t →
    Executed cacheKey s → Executed cacheKey t → i = j

section

variable {router : Router} {c c' : Config} {a : Action}

theorem Executed.sent {cacheKey : String} {s : RequestState} (h : Executed cacheKey s) :
    ∃ response, Sent cacheKey response s := by
  cases s with
  | answered request key response pendingSet call => exact ⟨response, h, rfl⟩
  | _ => exact h.elim

/-- Of two requests, one busy and one executed, the second is the first. -/
theorem OnceInv.busy_executed (hinv : OnceInv c) {i j : ℕ} {s t : RequestState} {cacheKey : String}
    (hi : c.threads i = some s) (hj : c.threads j = some t) (hbusy : Busy cacheKey s)
    (hexecuted : Executed cacheKey t) : i = j := by
  obtain ⟨response, hsent⟩ := hexecuted.sent
  obtain hentry | hbusy' := hinv.sent j t hj cacheKey response hsent
  · exact absurd ((hinv.missing i s cacheKey hi hbusy).symm.trans hentry) (by simp)
  · exact hinv.busy i j s t cacheKey hi hj hbusy hbusy'

theorem OnceInv.spawn (hinv : OnceInv c) (i : ℕ) (request : LinkRequest) :
    OnceInv { c with
      threads := Function.update c.threads i (some (intercept router request)) } := by
  -- A request that starts is not busy, and has been sent nothing.
  have hold {j : ℕ} {s : RequestState} {P : RequestState → Prop}
      (hj : Function.update c.threads i (some (intercept router request)) j = some s)
      (hnot : ¬ P (intercept router request)) (hs : P s) : c.threads j = some s := by
    obtain ⟨_, rfl⟩ | ⟨_, hj⟩ := Program.update_cases hj
    · exact absurd hs hnot
    · exact hj
  have hidle (cacheKey : String) := intercept_idle router cacheKey request
  refine ⟨fun j k s t key hj hk hs ht => ?_, fun j s key hj hs => ?_, fun j s hj => ?_,
    fun j k s t key hj hk hs ht => ?_⟩
  · exact hinv.busy j k s t key (hold hj (hidle key).1 hs) (hold hk (hidle key).1 ht) hs ht
  · exact hinv.missing j s key (hold hj (hidle key).1 hs) hs
  · obtain ⟨_, rfl⟩ | ⟨_, hj⟩ := Program.update_cases hj
    · exact fun key response hsent => absurd hsent ((hidle key).2.2 response)
    · exact hinv.sent j s hj
  · exact hinv.executed j k s t key (hold hj (hidle key).2.1 hs) (hold hk (hidle key).2.1 ht) hs ht

/-- A step of a request: it becomes busy only when no other one with its key is. -/
theorem OnceInv.move (hinv : OnceInv c) {i : ℕ} {s s' : RequestState} {label : RequestLabel}
    {w' : HttpWorld} (hi : c.threads i = some s) (h : Step router c.shared s label w' s')
    (havailable : RedisAvailable (.step i label)) (hoverlap : NoOverlap c (.step i label)) :
    OnceInv ⟨w', Function.update c.threads i (some s')⟩ := by
  have hlabel : label ≠ .setFail := by
    rintro rfl
    exact havailable
  have hbusy {j : ℕ} {t : RequestState} {key : String} (hj : c.threads j = some t) (hji : j ≠ i)
      (ht : Busy key t) : ¬ Busy key s' := by
    intro hs'
    obtain hs | ⟨rfl, _, request, rfl⟩ := h.busy hs'
    · exact hji (hinv.busy j i t s key hj hi ht hs)
    · exact hoverlap request key hi j t hj ht
  have hexecuted {j : ℕ} {t : RequestState} {key : String} (hj : c.threads j = some t)
      (hji : j ≠ i) (ht : Executed key t) : ¬ Executed key s' := by
    intro hs'
    obtain hs | hs := h.executed hs'
    · exact hji (hinv.executed j i t s key hj hi ht hs)
    · exact hji (hinv.busy_executed hi hj hs ht).symm
  refine ⟨fun j k t u key hj hk ht hu => ?_, fun j t key hj ht => ?_, fun j t hj => ?_,
    fun j k t u key hj hk ht hu => ?_⟩
  · obtain ⟨rfl, rfl⟩ | ⟨hji, hj'⟩ := Program.update_cases hj
    · obtain ⟨rfl, _⟩ | ⟨hki, hk'⟩ := Program.update_cases hk
      · rfl
      · exact absurd ht (hbusy hk' hki hu)
    · obtain ⟨rfl, rfl⟩ | ⟨_, hk'⟩ := Program.update_cases hk
      · exact absurd hu (hbusy hj' hji ht)
      · exact hinv.busy j k t u key hj' hk' ht hu
  · obtain ⟨rfl, rfl⟩ | ⟨hji, hj'⟩ := Program.update_cases hj
    · obtain hsame | ⟨_, hnot⟩ := h.responses key
      · obtain hs | ⟨_, hmiss, _⟩ := h.busy ht
        · exact hsame.trans (hinv.missing j s key hi hs)
        · exact hsame.trans hmiss
      · exact absurd ht hnot
    · obtain hsame | ⟨hs, _⟩ := h.responses key
      · exact hsame.trans (hinv.missing j t key hj' ht)
      · exact absurd (hinv.busy j i t s key hj' hi ht hs) hji
  · obtain ⟨rfl, rfl⟩ | ⟨hji, hj'⟩ := Program.update_cases hj
    · exact h.sent hlabel (hinv.sent j s hi)
    · intro key response hsent
      obtain hsame | ⟨hs, _⟩ := h.responses key
      · exact (hinv.sent j t hj' key response hsent).imp_left hsame.trans
      · -- The entry that is written is that of a busy request, so this one was not sent it.
        obtain hentry | ht := hinv.sent j t hj' key response hsent
        · exact absurd ((hinv.missing i s key hi hs).symm.trans hentry) (by simp)
        · exact absurd (hinv.busy j i t s key hj' hi ht hs) hji
  · obtain ⟨rfl, rfl⟩ | ⟨hji, hj'⟩ := Program.update_cases hj
    · obtain ⟨rfl, _⟩ | ⟨hki, hk'⟩ := Program.update_cases hk
      · rfl
      · exact absurd ht (hexecuted hk' hki hu)
    · obtain ⟨rfl, rfl⟩ | ⟨_, hk'⟩ := Program.update_cases hk
      · exact absurd hu (hexecuted hj' hji ht)
      · exact hinv.executed j k t u key hj' hk' ht hu

theorem OnceInv.step (hinv : OnceInv c) (hguard : OnceGuard router c a)
    (hexec : (program router).exec c a = some c') : OnceInv c' := by
  obtain ⟨hstart, havailable, hoverlap⟩ := hguard
  obtain ⟨i, p, rfl, hi, rfl⟩ | ⟨i, label, s, w', s', rfl, hi, hstep, rfl⟩ |
    ⟨x, w', rfl, hevent, rfl⟩ := Program.exec_cases hexec
  · obtain ⟨request, rfl⟩ := hstart
    exact hinv.spawn i request
  · exact hinv.move hi (step_cases hstep) havailable hoverlap
  · cases x with
    | expire cacheKey => exact havailable.elim
    | others stores =>
        obtain rfl := Option.some.inj hevent
        exact ⟨hinv.busy, hinv.missing, hinv.sent, hinv.executed⟩

theorem onceInv_of_reach (h : (system router).Reach (OnceGuard router) c) : OnceInv c := by
  refine h.invariant (fun c₀ ⟨_, hidle⟩ => ?_) fun _ _ _ hinv hguard hexec => hinv.step hguard hexec
  have hnone {i : ℕ} {s : RequestState} : c₀.threads i ≠ some s := fun hi =>
    absurd ((hidle i).symm.trans hi) (by simp)
  exact ⟨fun i j s t key hi => absurd hi hnone, fun i s key hi => absurd hi hnone,
    fun i s hi => absurd hi hnone, fun i j s t key hi => absurd hi hnone⟩

/-- The handler runs once. When requests with one cache key do not overlap
between GET and SET, at most one of them has been executed, and all that have been
answered have been sent the same status and body. -/
theorem executed_at_most_once (hreach : (system router).Reach (OnceGuard router) c)
    (cacheKey : String) :
    (∀ i j s t, c.threads i = some s → c.threads j = some t → Executed cacheKey s →
      Executed cacheKey t → i = j) ∧
    ∀ i j s t response other, c.threads i = some s → c.threads j = some t →
      Sent cacheKey response s → Sent cacheKey other t → response = other := by
  have hinv := onceInv_of_reach hreach
  refine ⟨fun i j s t hi hj => hinv.executed i j s t cacheKey hi hj,
    fun i j s t response other hi hj hs ht => ?_⟩
  obtain hentry | hbusy := hinv.sent i s hi cacheKey response hs
  · obtain hentry' | hbusy' := hinv.sent j t hj cacheKey other ht
    · exact Option.some.inj (hentry.symm.trans hentry')
    · exact absurd ((hinv.missing j t cacheKey hj hbusy').symm.trans hentry) (by simp)
  · obtain hentry' | hbusy' := hinv.sent j t hj cacheKey other ht
    · exact absurd ((hinv.missing i s cacheKey hi hbusy).symm.trans hentry') (by simp)
    · obtain rfl := hinv.busy i j s t cacheKey hi hj hbusy hbusy'
      obtain rfl := Option.some.inj (hi.symm.trans hj)
      cases s with
      | answered request key own pendingSet call => exact hs.2.symm.trans ht.2
      | replayed request key cached => exact hs.2.symm.trans ht.2
      | _ => exact hs.elim

end

/-! ### A retry that overlaps -/

def retriedKey : String :=
  buildCacheKey "0b9f6a1e-7a53-4c0a-9d6b-52a1c8f0e3d7" "/v1/users/golfer-1/identities"

/-- The request and its retry both make their GET before either is answered. -/
def overlapActions : List Action :=
  [.spawn 0 (intercept golferRouter firstRequest), .spawn 1 (intercept golferRouter firstRequest),
    .step 0 .get, .step 1 .get, .step 0 .handler, .step 0 .handler, .step 1 .handler,
    .step 1 .handler]

def afterOverlap : Config :=
  ((system golferRouter).execAll noRequests overlapActions).getD noRequests

/-- The row as the retry has updated it is the same, since no time has passed. -/
theorem afterOverlap_executed : ∀ i < 2, afterOverlap.threads i =
    some (.answered firstRequest (some retriedKey) ⟨201, firstRow⟩ true
      (.backfill (.trackpro, "tp-user-1") "golfer-1" firstRow)) := by
  intro i hi
  obtain _ | _ | i := i
  · rfl
  · rfl
  · omega

/-- Without the condition the handler runs twice for one key. -/
theorem executed_twice :
    ¬ ∀ (router : Router) (c : Config),
      (system router).Reach (fun _ a => Starts router a ∧ RedisAvailable a) c →
      ∀ cacheKey i j s t, c.threads i = some s → c.threads j = some t → Executed cacheKey s →
        Executed cacheKey t → i = j := by
  intro h
  have hguard : ∀ a ∈ overlapActions, Starts golferRouter a ∧ RedisAvailable a := by
    simp only [overlapActions, List.forall_mem_cons]
    refine ⟨⟨⟨firstRequest, rfl⟩, trivial⟩, ⟨⟨firstRequest, rfl⟩, trivial⟩, ?_⟩
    simp [Starts, RedisAvailable]
  have hrun := System.run_of_isSome (S := system golferRouter) (c := noRequests)
    (fun a ha _ => hguard a ha) (by decide)
  exact absurd (h golferRouter afterOverlap
    ⟨noRequests, overlapActions, ⟨fun _ => rfl, fun _ => rfl⟩, hrun⟩ retriedKey 0 1 _ _
    (afterOverlap_executed 0 (by decide)) (afterOverlap_executed 1 (by decide)) rfl rfl) (by decide)

/-- The two requests, each when it makes its GET. -/
theorem lookups_of_replay : ∀ k i request,
    (k, i, request) ∈ [(1, 0, firstRequest), (7, 1, otherRequest)] →
    ((system golferRouter).execAll noRequests (replayActions.take k)).map (fun d => d.threads i) =
      some (some (.lookup request retriedKey)) := by
  intro k i request hmem
  obtain heq | hmem := List.mem_cons.mp hmem
  · obtain ⟨rfl, rfl, rfl⟩ := heq
    rfl
  · obtain ⟨rfl, rfl, rfl⟩ := List.mem_singleton.mp hmem
    rfl

/-- When they do, nobody is busy. -/
theorem not_busy_of_replay {k : ℕ} {d : Config} (hk : k ∈ [1, 7])
    (hd : (system golferRouter).execAll noRequests (replayActions.take k) = some d) :
    ∀ j s, d.threads j = some s → ¬ Busy retriedKey s := by
  have hquiet : ∀ k ∈ [1, 7], ((system golferRouter).execAll noRequests
      (replayActions.take k)).map (fun d => (List.range 2).all fun j =>
        (d.threads j).all fun s => !decide (Busy retriedKey s)) = some true := by
    decide
  intro j s hj
  by_cases hjk : j < 2
  · have hquiet := hquiet k hk
    rw [hd, Option.map_some, Option.some_inj, List.all_eq_true] at hquiet
    have hnot := hquiet j (List.mem_range.mpr hjk)
    rw [hj] at hnot
    simpa using hnot
  · have hnone : d.threads j = none := Program.threads_of_execAll hd rfl fun p hp => by
      have hmem := List.mem_of_mem_take hp
      simp only [replayActions, List.mem_cons, List.not_mem_nil, or_false, reduceCtorEq, false_or,
        Lib.Action.spawn.injEq] at hmem
      omega
    exact absurd (hnone.symm.trans hj) (by simp)

theorem noOverlap_of_replay {k i : ℕ} {request : LinkRequest} {d : Config}
    (hmem : (k, i, request) ∈ [(1, 0, firstRequest), (7, 1, otherRequest)])
    (hd : (system golferRouter).execAll noRequests (replayActions.take k) = some d) :
    NoOverlap d (.step i .get) := by
  intro request' cacheKey hi j s hj
  have hlookup := lookups_of_replay k i request hmem
  rw [hd, Option.map_some, Option.some_inj, hi, Option.some_inj] at hlookup
  obtain ⟨rfl, rfl⟩ := RequestState.lookup.inj hlookup
  have hk : k ∈ [1, 7] := by
    simp only [List.mem_cons, Prod.mk.injEq, List.not_mem_nil, or_false] at hmem ⊢
    exact hmem.imp And.left And.left
  exact not_busy_of_replay hk hd j s hj

theorem run_replayActions_once :
    (system golferRouter).Run (OnceGuard golferRouter) noRequests replayActions afterReplay := by
  refine System.run_of_guards (by decide) fun k a d ha hd => ?_
  obtain _ | _ | _ | _ | _ | _ | _ | _ | k := k
  · obtain rfl := Option.some.inj ha
    exact ⟨⟨firstRequest, rfl⟩, trivial, trivial⟩
  · obtain rfl := Option.some.inj ha
    exact ⟨trivial, trivial, noOverlap_of_replay (List.mem_cons_self ..) hd⟩
  iterate 4
    · obtain rfl := Option.some.inj ha
      exact ⟨trivial, trivial, trivial⟩
  · obtain rfl := Option.some.inj ha
    exact ⟨⟨otherRequest, rfl⟩, trivial, trivial⟩
  · obtain rfl := Option.some.inj ha
    exact ⟨trivial, trivial,
      noOverlap_of_replay (List.mem_cons_of_mem _ (List.mem_singleton_self _)) hd⟩
  · exact absurd ha (by simp [replayActions])

/-- Requests that do not overlap are all sent the answer of the first one. -/
theorem executed_at_most_once_replay :
    afterReplay.threads 1 = some (.replayed otherRequest retriedKey ⟨201, firstRow⟩) ∧
      ∀ i s response, afterReplay.threads i = some s → Sent retriedKey response s →
        response = ⟨201, firstRow⟩ := by
  refine ⟨afterReplay_answer, fun i s response hi hsent => ?_⟩
  exact (executed_at_most_once
    ⟨noRequests, replayActions, ⟨fun _ => rfl, fun _ => rfl⟩, run_replayActions_once⟩
    retriedKey).2 i 1 s _ response _ hi afterReplay_answer hsent ⟨rfl, rfl⟩

end PureplayIngest.Identity.LinkRequests
