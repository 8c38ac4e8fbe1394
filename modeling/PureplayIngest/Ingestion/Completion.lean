import PureplayIngest.Identity.CacheLifetime
import PureplayIngest.Ingestion.Provenance
import PureplayIngest.Webhooks.RowLimits

/-!
Which jobs of the queue can be completed.

An attempt at a job stores its shot when nothing fails on the way and the `shots`
table takes the shot. The first is up to the surroundings, and whatever has
happened before it can still be so; the second the schemas do not promise. A job
whose shot the table takes can be completed from every state of every run, unless
it has but one attempt left: a shot that is found to be a near duplicate is
flagged, but the patch of its event is refused, so the attempt ends with an error,
and it is the next one that finds the row and returns. A job whose shot the table
does not take no run completes: all its attempts fail.
-/

namespace PureplayIngest

open Shared Shared.Domain Shared.Kysely Identity Ingestion Migrations Lib Webhooks

/-! ### Users that fit the column -/

/-- Under the key of a pair there is the text of a user that fits. -/
def ShortEntry (key : String) (value : CacheValue) : Prop :=
  ∀ pair : Vendor × String, key = identityCacheKey pair.1 pair.2 →
    ∃ s, value = .text s ∧ VarcharTakes 26 s

structure ShortUsers (w : Stores) : Prop where
  identities : ∀ row ∈ w.db.user_identities, VarcharTakes 26 row.canonical_user_id
  cached : ∀ key value, w.redis key = some value → ShortEntry key value

def ShortSetting (call : Call) : Prop :=
  ∀ key value, call.setting = some (key, value) → ShortEntry key value

section

variable {deps : Deps} {w w' : World} {db db' : Database} {call call' : Call} {label : Label}

theorem mapping_short {pair : Vendor × String} {user : String}
    (hshort : ∀ row ∈ db.user_identities, VarcharTakes 26 row.canonical_user_id)
    (h : mapping db pair = some user) : VarcharTakes 26 user := by
  obtain ⟨row, hfind, rfl⟩ := Option.map_eq_some_iff.mp h
  exact hshort row (List.mem_of_find?_eq_some hfind)

theorem CurrentValue.short {key : String} {value : CacheValue}
    (hshort : ∀ row ∈ db.user_identities, VarcharTakes 26 row.canonical_user_id)
    (h : CurrentValue db key value) : ShortEntry key value := by
  intro pair hkey
  cases h with
  | text pair' =>
      refine ⟨_, rfl, ?_⟩
      cases hm : mapping db pair' with
      | none =>
          show VarcharTakes 26 ""
          decide
      | some user => exact mapping_short hshort hm
  | identities user hrows => exact absurd hkey (listKey_ne_identityKey user pair)

theorem linkTransaction_short {pair : Vendor × String} {c actor : String} {row : VendorIdentity}
    (hshort : ∀ row ∈ db.user_identities, VarcharTakes 26 row.canonical_user_id)
    (h : linkTransaction db pair c actor = some (db', row)) :
    ∀ row ∈ db'.user_identities, VarcharTakes 26 row.canonical_user_id := by
  rw [linkTransaction] at h
  split at h
  · rename_i hfits
    obtain ⟨rfl, _⟩ := Prod.mk.inj (Option.some.inj h)
    show ∀ row ∈ (upsertIdentity db pair c).1.user_identities, _
    rw [upsertIdentity]
    split
    · intro r hr
      obtain ⟨old, hold, rfl⟩ := List.mem_map.mp hr
      split
      · exact hfits.2
      · exact hshort old hold
    · intro r hr
      obtain hr | hr := List.mem_append.mp hr
      · exact hshort r hr
      · obtain rfl := List.mem_singleton.mp hr
        exact hfits.2
  · exact absurd h (by simp)

theorem unlinkTransaction_short {pair : Vendor × String} {c actor : String}
    (hshort : ∀ row ∈ db.user_identities, VarcharTakes 26 row.canonical_user_id)
    (h : unlinkTransaction db pair c actor = some db') :
    ∀ row ∈ db'.user_identities, VarcharTakes 26 row.canonical_user_id := by
  simp only [unlinkTransaction] at h
  split at h
  · obtain rfl := Option.some.inj h
    exact fun row hrow => hshort row (List.mem_filter.mp hrow).1
  · exact absurd h (by simp)

theorem step_shortIdentities (h : Service.step deps w call label = some (w', call'))
    (hshort : ∀ row ∈ w.db.user_identities, VarcharTakes 26 row.canonical_user_id) :
    ∀ row ∈ w'.db.user_identities, VarcharTakes 26 row.canonical_user_id := by
  cases Service.step_cases h with
  | process hstep =>
      rw [(process_sameIdentityTables (ProcessState.step_cases hstep)).user_identities]
      exact hshort
  | resolve k hstep =>
      show ∀ row ∈ Database.user_identities _, _
      rw [ResolveState.step_db hstep]
      exact hshort
  | @link s s' stores k hstep =>
      cases s with
      | commit p c actor =>
          obtain ⟨⟨db, row⟩, hlink, heq⟩ := Option.map_eq_some_iff.mp hstep
          obtain ⟨rfl, _⟩ := Prod.mk.inj heq
          exact linkTransaction_short hshort hlink
      | del p c row => exact (Prod.mk.inj (Option.some.inj hstep)).1 ▸ hshort
      | backfill p c row => exact (Prod.mk.inj (Option.some.inj hstep)).1 ▸ hshort
      | finished p c row b => exact absurd hstep (by simp [LinkState.step])
      | rejected p c committed => exact absurd hstep (by simp [LinkState.step])
  | @unlink s s' stores k hstep =>
      cases s with
      | commit p c actor =>
          rw [UnlinkState.step] at hstep
          split at hstep
          · rename_i db hunlink
            obtain ⟨rfl, _⟩ := Prod.mk.inj (Option.some.inj hstep)
            exact unlinkTransaction_short hshort hunlink
          · exact (Prod.mk.inj (Option.some.inj hstep)).1 ▸ hshort
      | del p c => exact (Prod.mk.inj (Option.some.inj hstep)).1 ▸ hshort
      | finished p c => exact absurd hstep (by simp [UnlinkState.step])
      | notFound p c => exact absurd hstep (by simp [UnlinkState.step])
      | rejected p c committed => exact absurd hstep (by simp [UnlinkState.step])
  | list hstep =>
      show ∀ row ∈ Database.user_identities _, _
      rw [list_step_identities hstep]
      exact hshort
  | _ => exact hshort

theorem ShortUsers.step (hshort : ShortUsers w.toStores) (hsetting : ShortSetting call)
    (h : Service.step deps w call label = some (w', call')) :
    ShortUsers w'.toStores ∧ ShortSetting call' := by
  refine ⟨⟨step_shortIdentities h hshort.identities, fun key value hvalue => ?_⟩,
    fun key value hset => (step_setting h hset).short hshort.identities⟩
  cases step_redisEffect h with
  | @set key' value' hwritten hredis =>
      rw [hredis, Redis.set] at hvalue
      by_cases hkey : key = key'
      · subst hkey
        rw [Function.update_self] at hvalue
        obtain rfl := Option.some.inj hvalue
        exact hsetting key value' (Timed.written_setting hwritten)
      · rw [Function.update_of_ne hkey] at hvalue
        exact hshort.cached key value hvalue
  | kept hwritten hredis => exact hshort.cached key value (hredis key value hvalue)

theorem ShortUsers.event {x : Event} (hshort : ShortUsers w.toStores)
    (h : Service.event w x = some w') : ShortUsers w'.toStores := by
  cases x with
  | expire key =>
      obtain rfl := Option.some.inj h
      refine ⟨hshort.identities, fun key' value hvalue => hshort.cached key' value ?_⟩
      simp only [Redis.del] at hvalue
      split at hvalue
      · exact absurd hvalue (by simp)
      · exact hvalue
  | tick ms =>
      obtain rfl := Option.some.inj h
      exact ⟨hshort.identities, hshort.cached⟩

end

namespace JobQueue

/-! ### An attempt in which nothing fails -/

inductive AttemptRun (deps : Deps) : World → ProcessState → World → ProcessState → Prop
  | refl (w : World) (s : ProcessState) : AttemptRun deps w s w s
  | step {w w₁ w₂ : World} {s s₁ s₂ : ProcessState} (k : ℕ)
      (hstep : s.step deps w k = some (w₁, s₁)) (tail : AttemptRun deps w₁ s₁ w₂ s₂) :
      AttemptRun deps w s w₂ s₂

section

variable {deps : Deps} {w w₁ w₂ : World} {s s₁ s₂ : ProcessState} {job : ShotJob}
  {shot : NormalisedShot}

theorem AttemptRun.trans (h : AttemptRun deps w s w₁ s₁) (h' : AttemptRun deps w₁ s₁ w₂ s₂) :
    AttemptRun deps w s w₂ s₂ := by
  induction h with
  | refl => exact h'
  | step k hstep _ ih => exact .step k hstep (ih h')

/-- The resolve call of an attempt returns, and what it returns fits. -/
theorem resolve_returns (deps : Deps) (hshort : ShortUsers w.toStores) (job : ShotJob)
    (pair : Vendor × String) : ∃ w₁ user, w₁.db = w.db ∧ (∀ u ∈ user, VarcharTakes 26 u) ∧
      AttemptRun deps w (.resolving job (.get pair)) w₁
        (.upsert job (resolvedShot job.normalisedShot user)) := by
  cases hcached : w.redis (identityCacheKey pair.1 pair.2) with
  | some value =>
      obtain ⟨s, rfl, hs⟩ := hshort.cached _ _ hcached pair rfl
      refine ⟨w, if s = "" then none else some s, rfl, fun u hu => ?_, .step 0 ?_ (.refl _ _)⟩
      · split at hu
        · exact absurd hu (by simp)
        · obtain rfl := Option.some.inj hu
          exact hs
      · rw [ProcessState.step, ResolveState.step, hcached]
        rfl
  | none =>
      have hmiss : ProcessState.step deps w 0 (.resolving job (.get pair)) =
          some (w, .resolving job (.select pair)) := by
        rw [ProcessState.step, ResolveState.step, hcached]
        rfl
      refine ⟨_, mapping w.db pair, ?_, fun u hu => mapping_short hshort.identities hu,
        .step 0 hmiss (.step 0 rfl (.step 0 rfl (.refl _ _)))⟩
      rfl

/-- Where an attempt gets to that has its row stored: it returns, or it is to patch
the event of a shot that it has flagged. -/
def Reaches (deps : Deps) (w : World) (s : ProcessState) (job : ShotJob) : Prop :=
  ∃ w₁, HasRow w₁.db (ShotJob.key job) ∧ (AttemptRun deps w s w₁ (.returned job) ∨
    ∃ id origin, AttemptRun deps w s w₁ (.patchOutbox job id origin))

theorem Reaches.of_run (h : AttemptRun deps w s w₁ s₁) (hreaches : Reaches deps w₁ s₁ job) :
    Reaches deps w s job := by
  obtain ⟨w₂, hrow, hrest⟩ := hreaches
  exact ⟨w₂, hrow, hrest.imp h.trans fun ⟨id, origin, hrest⟩ => ⟨id, origin, h.trans hrest⟩⟩

/-- The search for an origin, and the flagging when there is one. -/
theorem lookup_reaches (deps : Deps) (id : String) (hrow : HasRow w.db (ShotJob.key job))
    (hdates : InDates shot.captured_at_utc) : Reaches deps w (.lookup job shot id) job := by
  obtain ⟨origins, horigins⟩ := originCandidates_of_dates deps.sha256 w.db hdates
  cases origins with
  | nil =>
      refine ⟨w.record [job.outcome "accepted", job.lag w.db.now], hrow,
        .inl (.step 0 ?_ (.refl _ _))⟩
      rw [ProcessState.step, horigins]
  | cons origin rest =>
      have hchoose : ProcessState.step deps w 0 (.lookup job shot id) =
          some (w, .flag job shot id origin.canonical_shot_id) := by
        rw [ProcessState.step, horigins]
        rfl
      refine ⟨_, ?_, .inr ⟨id, _, .step 0 hchoose (.step 0 rfl (.refl _ _))⟩⟩
      obtain ⟨row, hmem, hkey⟩ := hrow
      refine ⟨_, List.mem_map_of_mem hmem, ?_⟩
      split <;> exact hkey

theorem upsert_finds (deps : Deps) (job : ShotJob) (haccepted : ShotAccepted shot)
    {existing : NormalisedShot}
    (hfind : findByIdempotencyKey w.db (shotKey shot.toShotWithoutPayload) = some existing) :
    AttemptRun deps w (.upsert job shot) (w.record [job.outcome "duplicate_exact"])
      (.returned job) := by
  refine .step 0 ?_ (.refl _ _)
  rw [ProcessState.step, upsertIfNew, if_pos haccepted, hfind]
  rfl

/-- The upsert of a shot that the table takes, and what comes after it. -/
theorem upsert_reaches (deps : Deps) (haccepted : ShotAccepted shot)
    (hkey : shotKey shot.toShotWithoutPayload = ShotJob.key job)
    (hid : ∀ row ∈ w.db.shots, row.canonical_shot_id = shot.canonical_shot_id →
      shotKey row.toShotWithoutPayload = shotKey shot.toShotWithoutPayload)
    (hduplicate : shot.duplicate_of = none) (hdates : InDates shot.captured_at_utc) :
    Reaches deps w (.upsert job shot) job := by
  cases hfind : findByIdempotencyKey w.db (shotKey shot.toShotWithoutPayload) with
  | some existing =>
      rw [findByIdempotencyKey] at hfind
      have hfound : shotKey existing.toShotWithoutPayload = shotKey shot.toShotWithoutPayload := by
        simpa using List.find?_some hfind
      exact ⟨w.record [job.outcome "duplicate_exact"],
        ⟨existing, List.mem_of_find?_eq_some hfind, hfound.trans hkey⟩,
        .inl (upsert_finds deps job haccepted hfind)⟩
  | none =>
      have hkeys : ¬ violatesKeys w.db shot.toShotWithoutPayload := by
        rintro (⟨row, hrow, hsame⟩ | ⟨o, ho, _⟩)
        · have hnew := List.find?_eq_none.mp hfind row hrow
          exact hnew (decide_eq_true (hid row hrow hsame))
        · rw [hduplicate] at ho
          exact absurd ho (by simp)
      have hinsert : ProcessState.step deps w 0 (.upsert job shot) =
          some ({ w with db := Database.insertShot w.db shot },
            .lookup job shot shot.canonical_shot_id) := by
        rw [ProcessState.step, upsertIfNew, if_pos haccepted, hfind]
        simp only [if_neg hkeys]
        rfl
      have hrow : HasRow (Database.insertShot w.db shot) (ShotJob.key job) :=
        ⟨shot, List.mem_append_right _ (List.mem_singleton_self _), hkey⟩
      exact .of_run (.step 0 hinsert (.refl _ _)) (lookup_reaches deps _ hrow hdates)

/-- The table takes the job's shot. -/
def Fits (job : ShotJob) : Prop := ShotAccepted job.normalisedShot

/-- An attempt up to its upsert. -/
theorem attempt_upserts (deps : Deps) (hshort : ShortUsers w.toStores) (hfits : Fits job)
    (hprocess : process job = .resolving job
      (resolveCanonicalUserId job.normalisedShot.vendor job.normalisedShot.vendor_user_id)) :
    ∃ w₁ c, w₁.db = w.db ∧ ShotAccepted { job.normalisedShot with canonical_user_id := c } ∧
      AttemptRun deps w (process job) w₁
        (.upsert job { job.normalisedShot with canonical_user_id := c }) := by
  obtain ⟨w₁, user, hdb, huser, hresolve⟩ := resolve_returns deps hshort job
    (job.normalisedShot.vendor, job.normalisedShot.vendor_user_id)
  obtain ⟨c, hc⟩ := resolvedShot_eq job.normalisedShot user
  have haccepted := shotAccepted_resolvedShot huser hfits
  rw [hc] at hresolve haccepted
  rw [hprocess]
  exact ⟨w₁, c, hdb, haccepted, hresolve⟩

theorem attempt_reaches (deps : Deps) {sha256 : String → String} (hshort : ShortUsers w.toStores)
    (hfits : Fits job) (hchecked : Checked sha256 job)
    (hid : ∀ row ∈ w.db.shots, row.canonical_shot_id = job.normalisedShot.canonical_shot_id →
      shotKey row.toShotWithoutPayload = ShotJob.key job)
    (hdates : InDates job.normalisedShot.captured_at_utc) :
    Reaches deps w (process job) job := by
  obtain ⟨w₁, c, hdb, haccepted, hrun⟩ := attempt_upserts deps hshort hfits hchecked.process_eq
  have hduplicate := hchecked.parsed.fresh.duplicate_of
  exact .of_run hrun (upsert_reaches deps haccepted rfl (fun row hrow => hid row (hdb ▸ hrow))
    hduplicate hdates)

/-- An attempt at a job whose row is stored finds it and returns. -/
theorem attempt_finds (deps : Deps) {sha256 : String → String} (hshort : ShortUsers w.toStores)
    (hfits : Fits job) (hchecked : Checked sha256 job) (hrow : HasRow w.db (ShotJob.key job)) :
    ∃ w₁, AttemptRun deps w (process job) w₁ (.returned job) := by
  obtain ⟨w₁, c, hdb, haccepted, hrun⟩ := attempt_upserts deps hshort hfits hchecked.process_eq
  obtain ⟨row, hmem, hkey⟩ := hrow
  obtain ⟨existing, hfind⟩ : ∃ existing, findByIdempotencyKey w₁.db (ShotJob.key job) =
      some existing := by
    refine Option.isSome_iff_exists.mp (List.find?_isSome.mpr ⟨row, hdb ▸ hmem, ?_⟩)
    exact decide_eq_true hkey
  exact ⟨_, hrun.trans (upsert_finds deps job haccepted hfind)⟩

end

/-! ### What is known of the jobs -/

/-- Requests and workers use one hash. No id is made twice for different jobs, and
requests are received two days or more from the ends of what a date can be. -/
structure Serviceable (deps : Deps) (wd : WebhookDeps) (P : HttpRequest → Prop) : Prop where
  sha256 : deps.sha256 = wd.sha256
  ulids : ∀ a b, Admitted wd P a → Admitted wd P b →
    a.normalisedShot.canonical_shot_id = b.normalisedShot.canonical_shot_id → a.jobId = b.jobId
  times : ∀ request, P request →
    -maxTimeValue + 2 * msPerDay ≤ request.receivedAt ∧
      request.receivedAt ≤ maxTimeValue - 2 * msPerDay

/-- The runs from empty tables, but for users that fit. -/
def drainSystem (deps : Deps) (maxDepth : ℕ) : System Config Action :=
  (program deps maxDepth).system fun w => Blank w ∧ ShortUsers w.toStores

/-- An active job is held by a running worker, and who has got past the upsert, or
completed, has a shot that fits. -/
structure Held (c : Config) : Prop where
  active : ∀ queued ∈ c.shared.queue.entries, ∀ i, queued.state = .active i →
    ∃ s, c.threads i = some (.worker (.running queued.id s)) ∧ jobOfAttempt s = queued.data
  completed : ∀ queued ∈ c.shared.queue.entries, ∀ t, queued.state = .completed t →
    Fits queued.data
  stored : ∀ i jobId s, c.threads i = some (.worker (.running jobId s)) → HasStored s →
    Fits (jobOfAttempt s)

def ShortCall (_ : ℕ) (_ : QueueWorld) : QueueCall → Prop
  | .service call => ShortSetting call
  | .worker (.running _ s) => ShortSetting (.process s)
  | _ => True

abbrev ShortInv (c : Config) : Prop :=
  Program.Inv (fun w : QueueWorld => ShortUsers w.toStores) ShortCall c

section

variable {deps : Deps} {wd : WebhookDeps} {P : HttpRequest → Prop} {maxDepth i : ℕ}
  {c c' : Config} {a : Action} {w w' : QueueWorld} {job : ShotJob}

/-! ### The invariants, step by step -/

theorem service_process {w w' : World} {s s' : ProcessState} {k : ℕ}
    (h : s.step deps w k = some (w', s')) :
    Service.step deps w (.process s) (.ok k) = some (w', .process s') := by
  rw [Service.step, h, Option.map_some]

theorem WorkerStep.short {s s' : WorkerState} {label : WorkerLabel}
    (h : WorkerStep deps i w s label w' s') (hshort : ShortUsers w.toStores)
    (hown : ShortCall i w (.worker s)) :
    ShortUsers w'.toStores ∧ ShortCall i w' (.worker s') := by
  cases h with
  | take hjob hwaiting =>
      refine ⟨hshort, fun key value hset => ?_⟩
      rw [(Call.Initial.process _).setting] at hset
      exact absurd hset (by simp)
  | process jobId hstep => exact ShortUsers.step hshort hown (service_process hstep)
  | fail jobId hfail =>
      obtain ⟨job, rfl⟩ := ProcessState.fail_cases hfail
      exact ⟨hshort, fun key value hset => absurd hset (by simp [Call.setting])⟩
  | complete jobId job => exact ⟨hshort, trivial⟩
  | giveUp jobId job => exact ⟨hshort, trivial⟩

theorem step_short (hinv : ShortInv c) (hstart : StartsFromRequests wd P a)
    (hexec : (program deps maxDepth).exec c a = some c') : ShortInv c' := by
  refine hinv.step hexec (fun j p ha => ?_) (fun j e p w' r ha hj hstep => ?_)
    (fun x w' ha hevent => ?_)
  · subst ha
    cases p with
    | webhook s => trivial
    | worker s =>
        obtain rfl : s = .idle := hstart
        trivial
    | service call =>
        intro key value hset
        rw [hstart.1.setting] at hset
        exact absurd hset (by simp)
  · have hown := hinv.threads j _ hj
    cases step_cases hstep with
    | webhook hwebhook => exact ⟨hinv.shared, trivial, fun k r _ hk => hinv.threads k r hk⟩
    | worker hworker =>
        obtain ⟨hshort, hown'⟩ := hworker.short hinv.shared hown
        exact ⟨hshort, hown', fun k r _ hk => hinv.threads k r hk⟩
    | service hservice =>
        obtain ⟨hshort, hown'⟩ := ShortUsers.step hinv.shared hown hservice
        exact ⟨hshort, hown', fun k r _ hk => hinv.threads k r hk⟩
  · cases event_cases hevent with
    | service hservice => exact ⟨hinv.shared.event hservice, fun k r hk => hinv.threads k r hk⟩
    | _ => exact ⟨hinv.shared, fun k r hk => hinv.threads k r hk⟩

/-- Who has got past the upsert has had a shot that fits. -/
theorem fits_step {w w' : World} {s s' : ProcessState} {k : ℕ} (hclean : CleanAttempt wd P s)
    (hfits : HasStored s → Fits (jobOfAttempt s)) (h : s.step deps w k = some (w', s'))
    (hstored : HasStored s') : Fits (jobOfAttempt s') := by
  have hjob := jobOfAttempt_step h
  rw [hjob]
  have hrow {job : ShotJob} {shot : NormalisedShot} {db : Database} {result : UpsertResult}
      (hs : s = .upsert job shot) (hupsert : upsertIfNew w.db shot = some (db, result)) :
      Fits (jobOfAttempt s) := by
    obtain ⟨c, hshot⟩ := hclean.pending shot (by rw [hs]; rfl)
    have hnone := hclean.admitted.checked.parsed.fresh.canonical_user_id
    have haccepted : ShotAccepted { shot with canonical_user_id := none } :=
      (upsertIfNew_cases hupsert).1.withUser (by simp)
    rw [hshot, ← hnone] at haccepted
    exact haccepted
  cases ProcessState.step_cases h with
  | recordFailure job => exact absurd rfl (hclean.noFailure job)
  | resolving job hcall =>
      rename_i call call' stores
      cases call' <;> exact hstored.elim
  | duplicate job hupsert => exact hrow rfl hupsert
  | inserted job hupsert => exact hrow rfl hupsert
  | _ => exact hfits trivial

theorem jobOfAttempt_process (job : ShotJob) : jobOfAttempt (process job) = job := by
  rw [process]
  split <;> rfl

theorem process_not_stored (job : ShotJob) : ¬ HasStored (process job) := by
  rw [process]
  split <;> exact fun h => h.elim

theorem mem_setState {q : Queue} {jobId : String} {f : QueuedJob → QueuedJob}
    (hf : ∀ job, (f job).data = job.data) {queued : QueuedJob} :
    queued ∈ (Queue.setState q jobId f hf).entries ↔ queued ∈ q.entries ∧ queued.id ≠ jobId ∨
      ∃ old ∈ q.entries, old.id = jobId ∧ queued = f old :=
  Keyed.mem_modify _

theorem mem_take {q : Queue} {jobId : String} {queued : QueuedJob} :
    queued ∈ (Queue.take q i jobId).entries ↔ queued ∈ q.entries ∧ queued.id ≠ jobId ∨
      ∃ old ∈ q.entries, old.id = jobId ∧ queued = { old with state := .active i } := by
  rw [Queue.take]
  exact mem_setState _

theorem mem_toWaiting {q : Queue} {jobId : String} {queued : QueuedJob} :
    queued ∈ (Queue.toWaiting q jobId).entries ↔ queued ∈ q.entries ∧ queued.id ≠ jobId ∨
      ∃ old ∈ q.entries, old.id = jobId ∧ queued = { old with state := .waiting } := by
  rw [Queue.toWaiting]
  exact mem_setState _

/-- The jobs of the queue stay or are put aside, and no worker has moved. -/
theorem Held.quiet (hheld : Held c)
    (hqueue : ∀ queued ∈ c'.shared.queue.entries, queued ∈ c.shared.queue.entries ∨
      (∀ i, queued.state ≠ .active i) ∧ ∀ t, queued.state ≠ .completed t)
    (hthreads : ∀ j jobId s, c'.threads j = some (.worker (.running jobId s)) ↔
      c.threads j = some (.worker (.running jobId s))) : Held c' := by
  refine ⟨fun queued hmem i hactive => ?_, fun queued hmem t hdone => ?_, fun i jobId s hi => ?_⟩
  · obtain hmem | ⟨hnot, _⟩ := hqueue queued hmem
    · obtain ⟨s, hs, hjob⟩ := hheld.active queued hmem i hactive
      exact ⟨s, (hthreads i _ s).mpr hs, hjob⟩
    · exact absurd hactive (hnot i)
  · obtain hmem | ⟨_, hnot⟩ := hqueue queued hmem
    · exact hheld.completed queued hmem t hdone
    · exact absurd hdone (hnot t)
  · exact hheld.stored i jobId s ((hthreads i jobId s).mp hi)

/-- A thread that is not a running worker, and does not become one. -/
theorem running_update {call' : QueueCall}
    (hi : ∀ jobId s, c.threads i ≠ some (.worker (.running jobId s)))
    (hcall' : ∀ jobId s, call' ≠ .worker (.running jobId s)) (j : ℕ) (jobId : String)
    (s : ProcessState) :
    Function.update c.threads i (some call') j = some (.worker (.running jobId s)) ↔
      c.threads j = some (.worker (.running jobId s)) := by
  by_cases hji : j = i
  · subst j
    rw [Function.update_self]
    exact ⟨fun h => absurd (Option.some.inj h) (hcall' jobId s), fun h => absurd h (hi jobId s)⟩
  · rw [Function.update_of_ne hji]

theorem Held.take {jobId : String} {queued : QueuedJob} (hheld : Held c)
    (hi : c.threads i = some (.worker .idle)) (hfind : c.shared.queue.find jobId = some queued) :
    Held ⟨{ c.shared with queue := Queue.take c.shared.queue i jobId },
      Function.update c.threads i (some (.worker (.running jobId (process queued.data))))⟩ := by
  obtain ⟨hqueued, hid⟩ := Keyed.mem_of_find hfind
  refine ⟨fun q' hmem j hactive => ?_, fun q' hmem t hdone => ?_, fun j jobId' s hj hstored => ?_⟩
  · obtain ⟨hmem, _⟩ | ⟨old, hold, holdid, rfl⟩ := mem_take.mp hmem
    · obtain ⟨s, hs, hjob⟩ := hheld.active q' hmem j hactive
      have hji : j ≠ i := by
        rintro rfl
        exact absurd (hi.symm.trans hs) (by simp)
      exact ⟨s, (Function.update_of_ne hji ..).trans hs, hjob⟩
    · obtain rfl := JobState.active.inj hactive
      obtain rfl := Keyed.eq_of_key hold hqueued (holdid.trans hid.symm)
      refine ⟨process old.data, (Function.update_self ..).trans ?_, jobOfAttempt_process old.data⟩
      rw [← holdid]
      rfl
  · obtain ⟨hmem, _⟩ | ⟨old, hold, holdid, rfl⟩ := mem_take.mp hmem
    · exact hheld.completed q' hmem t hdone
    · exact absurd hdone (by simp)
  · obtain ⟨_, heq⟩ | ⟨_, hj⟩ := Program.update_cases hj
    · obtain ⟨_, rfl⟩ := WorkerState.running.inj (QueueCall.worker.inj heq)
      exact absurd hstored (process_not_stored queued.data)
    · exact hheld.stored j jobId' s hj hstored

/-- A worker goes on with its attempt. -/
theorem Held.move {jobId : String} {s s' : ProcessState} {world : World} (hheld : Held c)
    (hi : c.threads i = some (.worker (.running jobId s))) (hjob : jobOfAttempt s' = jobOfAttempt s)
    (hstored : HasStored s' → Fits (jobOfAttempt s')) :
    Held ⟨{ c.shared with toWorld := world },
      Function.update c.threads i (some (.worker (.running jobId s')))⟩ := by
  refine ⟨fun queued hmem j hactive => ?_, hheld.completed, fun j jobId' s₁ hj hs₁ => ?_⟩
  · obtain ⟨s₁, hs₁, hjob₁⟩ := hheld.active queued hmem j hactive
    by_cases hji : j = i
    · subst j
      obtain ⟨hid, rfl⟩ := WorkerState.running.inj (QueueCall.worker.inj
        (Option.some.inj (hi.symm.trans hs₁)))
      refine ⟨s', (Function.update_self ..).trans ?_, hjob.trans hjob₁⟩
      rw [hid]
    · exact ⟨s₁, (Function.update_of_ne hji ..).trans hs₁, hjob₁⟩
  · obtain ⟨_, heq⟩ | ⟨_, hj⟩ := Program.update_cases hj
    · obtain ⟨_, rfl⟩ := WorkerState.running.inj (QueueCall.worker.inj heq)
      exact hstored hs₁
    · exact hheld.stored j jobId' s₁ hj hs₁

/-- A worker ends its attempt: the job it still holds is put aside, or it fits. -/
theorem Held.finish {jobId : String} {s : ProcessState} {g : QueuedJob → QueuedJob} {q : Queue}
    {hg : ∀ job, (if job.state = .active i then g job else job).data = job.data} (hheld : Held c)
    (hi : c.threads i = some (.worker (.running jobId s)))
    (hq : q = Queue.setState c.shared.queue jobId
      (fun job => if job.state = .active i then g job else job) hg)
    (hactive : ∀ job j, (g job).state ≠ .active j)
    (hdone : ∀ job t, (g job).state = .completed t → job.state = .active i → HasStored s) :
    Held ⟨{ c.shared with queue := q },
      Function.update c.threads i (some (.worker .finished))⟩ := by
  subst hq
  have hown {queued : QueuedJob} (hmem : queued ∈ c.shared.queue.entries)
      (hstate : queued.state = .active i) : queued.id = jobId ∧ jobOfAttempt s = queued.data := by
    obtain ⟨s₁, hs₁, hjob₁⟩ := hheld.active queued hmem i hstate
    obtain ⟨hid, rfl⟩ := WorkerState.running.inj (QueueCall.worker.inj
      (Option.some.inj (hi.symm.trans hs₁)))
    exact ⟨hid.symm, hjob₁⟩
  have hother {queued : QueuedJob} {j : ℕ} (hmem : queued ∈ c.shared.queue.entries)
      (hstate : queued.state = .active j) (hji : j ≠ i) :
      ∃ s₁, Function.update c.threads i (some (.worker .finished)) j =
        some (.worker (.running queued.id s₁)) ∧ jobOfAttempt s₁ = queued.data := by
    obtain ⟨s₁, hs₁, hjob₁⟩ := hheld.active queued hmem j hstate
    exact ⟨s₁, (Function.update_of_ne hji ..).trans hs₁, hjob₁⟩
  refine ⟨fun queued hmem j hstate => ?_, fun queued hmem t hstate => ?_,
    fun j jobId' s₁ hj hs₁ => ?_⟩
  · obtain ⟨hmem, hne⟩ | ⟨old, hold, holdid, rfl⟩ := (mem_setState hg).mp hmem
    · refine hother hmem hstate fun hji => ?_
      exact hne (hown hmem (hji ▸ hstate)).1
    · by_cases holdstate : old.state = .active i
      · rw [if_pos holdstate] at hstate
        exact absurd hstate (hactive old j)
      · rw [if_neg holdstate] at hstate ⊢
        exact hother hold hstate fun hji => holdstate (hji ▸ hstate)
  · obtain ⟨hmem, _⟩ | ⟨old, hold, holdid, rfl⟩ := (mem_setState hg).mp hmem
    · exact hheld.completed queued hmem t hstate
    · rw [hg]
      by_cases holdstate : old.state = .active i
      · rw [if_pos holdstate] at hstate
        rw [← (hown hold holdstate).2]
        exact hheld.stored i jobId s hi (hdone old t hstate holdstate)
      · rw [if_neg holdstate] at hstate
        exact hheld.completed old hold t hstate
  · obtain ⟨_, heq⟩ | ⟨_, hj⟩ := Program.update_cases hj
    · exact absurd heq (by simp)
    · exact hheld.stored j jobId' s₁ hj hs₁

theorem jobOfAttempt_fail {s s' : ProcessState} (h : s.fail = some s') :
    jobOfAttempt s' = jobOfAttempt s ∧ ¬ HasStored s' := by
  cases s with
  | returned job => exact absurd h (by simp [ProcessState.fail])
  | failed job => exact absurd h (by simp [ProcessState.fail])
  | _ =>
      obtain rfl := Option.some.inj h
      exact ⟨rfl, fun h => h.elim⟩

theorem Held.worker {s s' : WorkerState} {label : WorkerLabel} (hheld : Held c)
    (hi : c.threads i = some (.worker s)) (hown : Sourced wd P i c.shared (.worker s))
    (h : WorkerStep deps i c.shared s label w' s') :
    Held ⟨w', Function.update c.threads i (some (.worker s'))⟩ := by
  cases h with
  | take hjob hwaiting => exact hheld.take hi hjob
  | process jobId hstep =>
      exact hheld.move hi (jobOfAttempt_step hstep)
        (fits_step hown (fun hs => hheld.stored i jobId _ hi hs) hstep)
  | fail jobId hfail =>
      obtain ⟨hjob, hnot⟩ := jobOfAttempt_fail hfail
      exact hheld.move hi hjob fun h => absurd h hnot
  | complete jobId job =>
      exact hheld.finish hi rfl (fun _ _ => by simp) fun _ _ _ _ => trivial
  | giveUp jobId job =>
      refine hheld.finish hi rfl (fun queued j => ?_) fun queued t hstate _ => ?_
      · show (if _ then JobState.delayed else JobState.failed _) ≠ _
        split <;> simp
      · have hstate : (if _ then JobState.delayed else JobState.failed _) = _ := hstate
        split at hstate <;> exact absurd hstate (by simp)

theorem Held.step (hheld : Held c) (hinv : ProvenanceInv wd P c)
    (hstart : StartsFromRequests wd P a) (hexec : (program deps maxDepth).exec c a = some c') :
    Held c' := by
  have hsame {w : QueueWorld} (hq : w.queue = c.shared.queue) :
      ∀ queued ∈ w.queue.entries, queued ∈ c.shared.queue.entries ∨
        (∀ i, queued.state ≠ .active i) ∧ ∀ t, queued.state ≠ .completed t :=
    fun queued hmem => .inl (hq ▸ hmem)
  have hwaits {jobId : String} : ∀ queued ∈ (Queue.toWaiting c.shared.queue jobId).entries,
      queued ∈ c.shared.queue.entries ∨
        (∀ i, queued.state ≠ .active i) ∧ ∀ t, queued.state ≠ .completed t := by
    intro queued hmem
    obtain ⟨hmem, _⟩ | ⟨old, hold, holdid, rfl⟩ := mem_toWaiting.mp hmem
    · exact .inl hmem
    · exact .inr ⟨by simp, by simp⟩
  obtain ⟨i, p, rfl, hi, rfl⟩ | ⟨i, label, p, w', p', rfl, hi, hstep, rfl⟩ |
    ⟨x, w', rfl, hevent, rfl⟩ := Program.exec_cases hexec
  · refine hheld.quiet (hsame rfl) (running_update (by simp [hi]) ?_)
    rintro jobId s rfl
    exact absurd hstart (by simp [StartsFromRequests])
  · cases step_cases hstep with
    | webhook hwebhook =>
        refine hheld.quiet ?_ (running_update (by simp [hi]) (by simp))
        cases hwebhook with
        | enqueue hcall henqueue =>
            cases henqueue with
            | added job hnew =>
                intro queued hmem
                obtain hmem | ⟨rfl, _⟩ := Keyed.mem_add.mp hmem
                · exact .inl hmem
                · exact .inr ⟨by simp, by simp⟩
            | _ => exact hsame rfl
        | _ => exact hsame rfl
    | worker hworker => exact hheld.worker hi (hinv.threads i _ hi) hworker
    | service hservice => exact hheld.quiet (hsame rfl) (running_update (by simp [hi]) (by simp))
  · refine hheld.quiet ?_ fun _ _ _ => Iff.rfl
    cases event_cases hevent with
    | service hservice => exact hsame rfl
    | promote hjob hdelayed => exact hwaits
    | stalled hjob hactive => exact hwaits
    | remove hjob hexpired => exact fun queued hmem => .inl (Keyed.mem_remove.mp hmem).1

/-! ### Runs -/

structure DrainInv (deps : Deps) (wd : WebhookDeps) (P : HttpRequest → Prop) (c : Config) :
    Prop where
  delivery : DeliveryInv deps c
  provenance : ProvenanceInv wd P c
  short : ShortInv c
  held : Held c

theorem drainInv_of_reach (hserviceable : Serviceable deps wd P)
    (hreach : (drainSystem deps maxDepth).Reach (fun _ => StartsFromRequests wd P) c) :
    DrainInv deps wd P c := by
  refine hreach.invariant (fun c₀ h₀ => ?_) fun c a c' hinv hstart hexec => ?_
  · obtain ⟨⟨hblank, hshort⟩, hidle⟩ := h₀
    have hno {i : ℕ} {call : QueueCall} (hi : c₀.threads i = some call) : False :=
      absurd ((hidle i).symm.trans hi) (by simp)
    have hnone {queued : QueuedJob} (hmem : queued ∈ c₀.shared.queue.entries) : False :=
      absurd (hblank.queue ▸ hmem) List.not_mem_nil
    exact ⟨deliveryInv_of_empty hblank.queue hblank.ingestion_failures hidle,
      provenanceInv_of_blank hblank hidle, ⟨hshort, fun i p hi => (hno hi).elim⟩,
      fun _ hmem => (hnone hmem).elim, fun _ hmem => (hnone hmem).elim,
      fun i jobId s hi => (hno hi).elim⟩
  · exact ⟨step_inv hinv.delivery (hserviceable.sha256 ▸ hstart.checked) hexec,
      step_provenance hinv.provenance hstart hexec, step_short hinv.short hstart hexec,
      hinv.held.step hinv.provenance hstart hexec⟩

theorem exec_worker {s s' : WorkerState} {label : WorkerLabel} (hi : c.threads i = some (.worker s))
    (h : s.step deps i c.shared label = some (w', s')) :
    (drainSystem deps maxDepth).exec c (.step i (.worker label)) =
      some ⟨w', Function.update c.threads i (some (.worker s'))⟩ := by
  simp only [drainSystem, Program.system_exec, Program.exec, hi, program, JobQueue.step, h,
    Option.map_some]

theorem starts_step (i : ℕ) (label : QueueLabel) : StartsFromRequests wd P (.step i label) :=
  trivial

theorem starts_worker (i : ℕ) : StartsFromRequests wd P (.spawn i (.worker .idle)) := rfl

/-- An attempt in which nothing fails, as a worker makes it. -/
theorem run_of_attempt (wd : WebhookDeps) (P : HttpRequest → Prop) (maxDepth : ℕ) {w₁ w₂ : World}
    {s₁ s₂ : ProcessState} {jobId : String} (h : AttemptRun deps w₁ s₁ w₂ s₂)
    (hworld : c.shared.toWorld = w₁)
    (hi : c.threads i = some (.worker (.running jobId s₁))) :
    ∃ as c', (drainSystem deps maxDepth).Run (fun _ => StartsFromRequests wd P) c as c' ∧
      c'.shared.toWorld = w₂ ∧ c'.shared.queue = c.shared.queue ∧
      c'.threads i = some (.worker (.running jobId s₂)) := by
  induction h generalizing c with
  | refl w s => exact ⟨[], c, .nil c, hworld, rfl, hi⟩
  | @step w w' w'' s s' s'' k hstep tail ih =>
      subst hworld
      have hexec : WorkerState.step deps i c.shared (.running jobId s) (.process k) =
          some ({ c.shared with toWorld := w' }, .running jobId s') := by
        rw [WorkerState.step, hstep, Option.map_some]
      obtain ⟨as, c', hrun, hworld', hqueue, hi'⟩ := ih (c := ⟨{ c.shared with toWorld := w' },
        Function.update c.threads i (some (.worker (.running jobId s')))⟩) rfl
        (Function.update_self ..)
      exact ⟨_, c', .cons (starts_step i _) (exec_worker hi hexec) hrun, hworld', hqueue, hi'⟩

theorem reaches_of_admitted (hserviceable : Serviceable deps wd P)
    (hfrom : FromRequests wd P c.shared.toWorld) (hshort : ShortUsers c.shared.toStores)
    (hjob : Admitted wd P job) (hfits : Fits job) :
    Reaches deps c.shared.toWorld (process job) job := by
  have htimes : InWindow job.receivedAtUtc job.normalisedShot.captured_at_utc ∧
      -maxTimeValue + 2 * msPerDay ≤ job.receivedAtUtc ∧
        job.receivedAtUtc ≤ maxTimeValue - 2 * msPerDay := by
    cases hjob with
    | intro request hsent hguard hschema hparse hshot hwindow =>
        exact ⟨hwindow, hserviceable.times request hsent⟩
  obtain ⟨hwindow, hmin, hmax⟩ := htimes
  refine attempt_reaches deps hshort hfits hjob.checked (fun row hrow hid => ?_) ?_
  · obtain ⟨other, hother, hof, _⟩ := hfrom.shots row hrow
    rw [ShotOf] at hof
    have hsame : other.normalisedShot.canonical_shot_id =
        job.normalisedShot.canonical_shot_id := by
      rw [← hid, hof]
    rw [hof]
    exact key_eq_of_jobId hother.checked.parsed hjob.checked.parsed
      (hserviceable.ulids other job hother hjob hsame)
  · rw [InWindow] at hwindow
    unfold msPerDay at hmin hmax
    rw [InDates]
    omega

/-! ### The parts of a way to go on -/

section Parts

variable {queued : QueuedJob}

/-- A job whose delay ends waits. -/
theorem waits_of_delayed (wd : WebhookDeps) (P : HttpRequest → Prop)
    (hqueued : queued ∈ c.shared.queue.entries) (hdelayed : queued.state = .delayed) :
    ∃ as c', (drainSystem deps maxDepth).Run (fun _ => StartsFromRequests wd P) c as c' ∧
      c'.shared.toWorld = c.shared.toWorld ∧
      { queued with state := .waiting } ∈ c'.shared.queue.entries := by
  have hfind := Keyed.find_of_mem hqueued
  have hstart : StartsFromRequests wd P (.env (.promote queued.id)) := trivial
  have hexec : (drainSystem deps maxDepth).exec c (.env (.promote queued.id)) =
      some ⟨{ c.shared with queue := Queue.toWaiting c.shared.queue queued.id }, c.threads⟩ := by
    simp only [drainSystem, Program.system_exec, Program.exec, program, event, hfind,
      Option.bind_some, hdelayed, if_true, Option.map_some]
  exact ⟨_, _, .cons hstart hexec (.nil _), rfl,
    mem_toWaiting.mpr (.inr ⟨queued, hqueued, rfl, rfl⟩)⟩

/-- A job that waits is taken by a new worker. -/
theorem taken_of_waiting (wd : WebhookDeps) (P : HttpRequest → Prop)
    (hqueued : queued ∈ c.shared.queue.entries) (hwaiting : queued.state = .waiting)
    (hi : c.threads i = none) :
    ∃ as c', (drainSystem deps maxDepth).Run (fun _ => StartsFromRequests wd P) c as c' ∧
      c'.shared.toWorld = c.shared.toWorld ∧
      c'.threads i = some (.worker (.running queued.id (process queued.data))) ∧
      { queued with state := .active i } ∈ c'.shared.queue.entries := by
  have hspawn : (drainSystem deps maxDepth).exec c (.spawn i (.worker .idle)) =
      some { c with threads := Function.update c.threads i (some (.worker .idle)) } := by
    simp only [drainSystem, Program.system_exec, Program.exec, hi]
  have hfind := Keyed.find_of_mem hqueued
  have htake : WorkerState.step deps i c.shared .idle (.take queued.id) =
      some ({ c.shared with queue := Queue.take c.shared.queue i queued.id },
        .running queued.id (process queued.data)) := by
    rw [WorkerState.step, hfind, Option.bind_some, if_pos hwaiting]
  exact ⟨_, _, .cons (starts_worker i) hspawn
    (.cons (starts_step i _) (exec_worker (Function.update_self ..) htake) (.nil _)), rfl,
    Function.update_self .., mem_take.mpr (.inr ⟨queued, hqueued, rfl, rfl⟩)⟩

/-- A worker whose attempt has returned completes the job that it holds. -/
theorem completed_of_returned (wd : WebhookDeps) (P : HttpRequest → Prop)
    (hactive : { queued with state := .active i } ∈ c.shared.queue.entries)
    (hi : c.threads i = some (.worker (.running queued.id (.returned job)))) :
    ∃ as c', (drainSystem deps maxDepth).Run (fun _ => StartsFromRequests wd P) c as c' ∧
      c'.shared.toWorld = c.shared.toWorld ∧
      ∃ done ∈ c'.shared.queue.entries, done.data = queued.data ∧
        ∃ t, done.state = .completed t := by
  have hfinish : WorkerState.step deps i c.shared (.running queued.id (.returned job)) .finish =
      some ({ c.shared with
        queue := Queue.moveToCompleted c.shared.queue i queued.id c.shared.db.now }, .finished) :=
    rfl
  refine ⟨_, _, .cons (starts_step i _) (exec_worker hi hfinish) (.nil _), rfl,
    { queued with state := .completed c.shared.db.now }, ?_, rfl, _, rfl⟩
  show _ ∈ (Queue.moveToCompleted _ _ _ _).entries
  rw [Queue.moveToCompleted]
  refine (mem_setState _).mpr (.inr ⟨_, hactive, rfl, ?_⟩)
  rw [if_pos rfl]

/-- A worker whose attempt ends at the patch puts the job that it holds aside. -/
theorem delayed_of_refused (wd : WebhookDeps) (P : HttpRequest → Prop) {id origin : String}
    (hactive : { queued with state := .active i } ∈ c.shared.queue.entries)
    (hattempts : queued.attemptsMade + 1 < attempts)
    (hi : c.threads i = some (.worker (.running queued.id (.patchOutbox job id origin)))) :
    ∃ as c', (drainSystem deps maxDepth).Run (fun _ => StartsFromRequests wd P) c as c' ∧
      c'.shared.toWorld = c.shared.toWorld ∧
      { queued with attemptsMade := queued.attemptsMade + 1, state := .delayed } ∈
        c'.shared.queue.entries := by
  have hfail : WorkerState.step deps i c.shared (.running queued.id (.patchOutbox job id origin))
      .fail = some (c.shared, .running queued.id (.failed job)) := rfl
  have hfinish : WorkerState.step deps i c.shared (.running queued.id (.failed job)) .finish =
      some ({ c.shared with
        queue := Queue.moveToFailed c.shared.queue i queued.id c.shared.db.now }, .finished) := rfl
  refine ⟨_, _, .cons (starts_step i _) (exec_worker hi hfail)
    (.cons (starts_step i _) (exec_worker (Function.update_self ..) hfinish) (.nil _)), rfl, ?_⟩
  show _ ∈ (Queue.moveToFailed _ _ _ _).entries
  rw [Queue.moveToFailed]
  refine (mem_setState _).mpr (.inr ⟨_, hactive, rfl, ?_⟩)
  rw [if_pos rfl, if_pos hattempts]

end Parts

/-! ### Which jobs are stored, and which completed -/

/-- Some attempt at the job has its row stored. -/
def StoredBy (c : Config) (job : ShotJob) : Prop :=
  HasRow c.shared.db (ShotJob.key job) ∧ ∃ i jobId s,
    c.threads i = some (.worker (.running jobId s)) ∧ jobOfAttempt s = job ∧ HasStored s

/-- The job is completed, and there is a row for its shot. -/
def CompletedWithRow (c : Config) (job : ShotJob) : Prop :=
  HasRow c.shared.db (ShotJob.key job) ∧
    ∃ done ∈ c.shared.queue.entries, done.data = job ∧ ∃ t, done.state = .completed t

/-- To be run at once, or when its delay is over. -/
def Waits (queued : QueuedJob) : Prop := queued.state = .waiting ∨ queued.state = .delayed

section Ways

variable {queued : QueuedJob}

theorem waiting_of_waits (wd : WebhookDeps) (P : HttpRequest → Prop)
    (hqueued : queued ∈ c.shared.queue.entries) (hwaits : Waits queued) :
    ∃ as c', (drainSystem deps maxDepth).Run (fun _ => StartsFromRequests wd P) c as c' ∧
      c'.shared.toWorld = c.shared.toWorld ∧
      { queued with state := .waiting } ∈ c'.shared.queue.entries := by
  obtain hwaiting | hdelayed := hwaits
  · refine ⟨[], c, .nil c, rfl, ?_⟩
    rw [← hwaiting]
    exact hqueued
  · exact waits_of_delayed wd P hqueued hdelayed

/-- A waiting job that fits is taken by a new worker, whose attempt stores its row. -/
theorem stored_of_waiting (hserviceable : Serviceable deps wd P)
    (hreach : (drainSystem deps maxDepth).Reach (fun _ => StartsFromRequests wd P) c)
    (hqueued : queued ∈ c.shared.queue.entries) (hwaiting : queued.state = .waiting)
    (hfits : Fits queued.data) :
    ∃ as c' i s, (drainSystem deps maxDepth).Run (fun _ => StartsFromRequests wd P) c as c' ∧
      HasRow c'.shared.db (ShotJob.key queued.data) ∧
      { queued with state := .active i } ∈ c'.shared.queue.entries ∧
      c'.threads i = some (.worker (.running queued.id s)) ∧
      (s = .returned queued.data ∨ ∃ id origin, s = .patchOutbox queued.data id origin) := by
  obtain ⟨hjobs, hfrom⟩ := (drainInv_of_reach hserviceable hreach).provenance.shared
  have hshort := (drainInv_of_reach hserviceable hreach).short.shared
  obtain ⟨i, hi⟩ := Program.exists_unstarted hreach
  obtain ⟨as, c₁, hrun, hworld, hi₁, hactive⟩ :=
    taken_of_waiting wd P hqueued hwaiting (hi i le_rfl)
  obtain ⟨w₂, hrow, hattempt⟩ :=
    reaches_of_admitted hserviceable hfrom hshort (hjobs queued hqueued) hfits
  obtain ⟨s, hs, hattempt⟩ : ∃ s, (s = .returned queued.data ∨
      ∃ id origin, s = .patchOutbox queued.data id origin) ∧
        AttemptRun deps c.shared.toWorld (process queued.data) w₂ s := by
    obtain hattempt | ⟨id, origin, hattempt⟩ := hattempt
    · exact ⟨_, .inl rfl, hattempt⟩
    · exact ⟨_, .inr ⟨id, origin, rfl⟩, hattempt⟩
  obtain ⟨bs, c₂, hrun', hworld', hqueue, hi₂⟩ := run_of_attempt wd P maxDepth hattempt hworld hi₁
  exact ⟨_, c₂, i, s, hrun.append hrun', hworld' ▸ hrow, hqueue ▸ hactive, hi₂, hs⟩

/-- A waiting job whose row is stored is completed by its next attempt. -/
theorem completed_of_stored (hserviceable : Serviceable deps wd P)
    (hreach : (drainSystem deps maxDepth).Reach (fun _ => StartsFromRequests wd P) c)
    (hqueued : queued ∈ c.shared.queue.entries) (hwaiting : queued.state = .waiting)
    (hfits : Fits queued.data) (hrow : HasRow c.shared.db (ShotJob.key queued.data)) :
    ∃ as c', (drainSystem deps maxDepth).Run (fun _ => StartsFromRequests wd P) c as c' ∧
      ∃ done ∈ c'.shared.queue.entries, done.data = queued.data ∧
        ∃ t, done.state = .completed t := by
  have hinv := drainInv_of_reach hserviceable hreach
  obtain ⟨i, hi⟩ := Program.exists_unstarted hreach
  obtain ⟨as, c₁, hrun, hworld, hi₁, hactive⟩ :=
    taken_of_waiting wd P hqueued hwaiting (hi i le_rfl)
  obtain ⟨w₂, hattempt⟩ := attempt_finds deps hinv.short.shared hfits
    (hinv.provenance.shared.1 queued hqueued).checked hrow
  obtain ⟨bs, c₂, hrun', _, hqueue, hi₂⟩ := run_of_attempt wd P maxDepth hattempt hworld hi₁
  obtain ⟨cs, c₃, hrun'', _, hdone⟩ := completed_of_returned wd P (hqueue ▸ hactive) hi₂
  exact ⟨_, c₃, (hrun.append hrun').append hrun'', hdone⟩

/-- A job that fits and has two attempts left: where the first ends at the patch,
the second returns. -/
theorem completed_of_waits (hserviceable : Serviceable deps wd P)
    (hreach : (drainSystem deps maxDepth).Reach (fun _ => StartsFromRequests wd P) c)
    (hqueued : queued ∈ c.shared.queue.entries) (hwaits : Waits queued)
    (hattempts : queued.attemptsMade + 1 < attempts) (hfits : Fits queued.data) :
    ∃ as c', (drainSystem deps maxDepth).Run (fun _ => StartsFromRequests wd P) c as c' ∧
      ∃ done ∈ c'.shared.queue.entries, done.data = queued.data ∧
        ∃ t, done.state = .completed t := by
  obtain ⟨as, c₁, hrun, _, hwaiting⟩ := waiting_of_waits wd P hqueued hwaits
  obtain ⟨bs, c₂, i, s, hrun₁, hrow, hactive, hi, hs⟩ :=
    stored_of_waiting hserviceable (hreach.run hrun) hwaiting rfl hfits
  have hrun₂ := hrun.append hrun₁
  obtain rfl | ⟨id, origin, rfl⟩ := hs
  · obtain ⟨cs, c₃, hrun₃, _, hdone⟩ := completed_of_returned wd P hactive hi
    exact ⟨_, c₃, hrun₂.append hrun₃, hdone⟩
  · obtain ⟨cs, c₃, hrun₃, hworld₃, hdelayed⟩ := delayed_of_refused wd P hactive hattempts hi
    obtain ⟨ds, c₄, hrun₄, hworld₄, hagain⟩ := waits_of_delayed wd P hdelayed rfl
    have hrun₅ := (hrun₂.append hrun₃).append hrun₄
    have hrow₄ : HasRow c₄.shared.db (ShotJob.key queued.data) := by
      rw [hworld₄, hworld₃]
      exact hrow
    obtain ⟨es, c₅, hrun₆, hdone⟩ :=
      completed_of_stored hserviceable (hreach.run hrun₅) hagain rfl hfits hrow₄
    exact ⟨_, c₅, hrun₅.append hrun₆, hdone⟩

/-- Which jobs can be stored and completed. From every state of every run: a job
that waits for an attempt gets its shot stored on some way to go on if and only if
the table takes the shot that the parser has made; and if it has two attempts
left, it is completed on some way to go on, with a row for its shot, if and only
if the table takes it. -/
theorem completes_iff (hserviceable : Serviceable deps wd P)
    (hreach : (drainSystem deps maxDepth).Reach (fun _ => StartsFromRequests wd P) c)
    (hqueued : queued ∈ c.shared.queue.entries) (hwaits : Waits queued) :
    ((∃ as c', (drainSystem deps maxDepth).Run (fun _ => StartsFromRequests wd P) c as c' ∧
        StoredBy c' queued.data) ↔ ShotAccepted queued.data.normalisedShot) ∧
      (queued.attemptsMade + 1 < attempts →
        ((∃ as c', (drainSystem deps maxDepth).Run (fun _ => StartsFromRequests wd P) c as c' ∧
          CompletedWithRow c' queued.data) ↔ ShotAccepted queued.data.normalisedShot)) := by
  refine ⟨⟨?_, fun hfits => ?_⟩, fun hattempts => ⟨?_, fun hfits => ?_⟩⟩
  · rintro ⟨as, c', hrun, _, i, jobId, s, hi, hjob, hstored⟩
    rw [← hjob]
    exact (drainInv_of_reach hserviceable (hreach.run hrun)).held.stored i jobId s hi hstored
  · obtain ⟨as, c₁, hrun, _, hwaiting⟩ := waiting_of_waits wd P hqueued hwaits
    obtain ⟨bs, c₂, i, s, hrun', hrow, _, hi, hs⟩ :=
      stored_of_waiting hserviceable (hreach.run hrun) hwaiting rfl hfits
    refine ⟨_, c₂, hrun.append hrun', hrow, i, queued.id, s, hi, ?_⟩
    obtain rfl | ⟨id, origin, rfl⟩ := hs
    · exact ⟨rfl, trivial⟩
    · exact ⟨rfl, trivial⟩
  · rintro ⟨as, c', hrun, _, done, hdone, hdata, t, ht⟩
    rw [← hdata]
    exact (drainInv_of_reach hserviceable (hreach.run hrun)).held.completed done hdone t ht
  · obtain ⟨as, c', hrun, done, hdone, hdata, t, ht⟩ :=
      completed_of_waits hserviceable hreach hqueued hwaits hattempts hfits
    refine ⟨as, c', hrun, ?_, done, hdone, hdata, t, ht⟩
    rw [← hdata]
    exact (drainInv_of_reach hserviceable (hreach.run hrun)).delivery.shared.completed
      done hdone t ht

end Ways

end

/-! ### A drive that waits -/

theorem serviceable_drive : Serviceable driveDeps driveHook (· = driveHttp) where
  sha256 := rfl
  ulids := by
    -- There is one request, with one shot.
    have hjob {job : ShotJob} (h : Admitted driveHook (· = driveHttp) job) :
        job.jobId = driveJobId := by
      cases h with
      | intro request hsent hguard hschema hparse hshot hwindow =>
          subst hsent
          obtain rfl := accepts_unique hschema (.trackpro (trackproSchema_toJson firstDrive))
          rw [AcceptedBody.parse, parseTrackpro_eq] at hparse
          obtain rfl := Except.ok.inj hparse
          obtain rfl := List.mem_singleton.mp hshot
          rfl
    exact fun a b ha hb _ => (hjob ha).trans (hjob hb).symm
  times := by
    rintro request rfl
    exact ⟨by decide, by decide⟩

def driveWaits : Config :=
  ((drainSystem driveDeps 10000).execAll emptyQueue
    (sendActions ++ [.step 0 (.webhook (.enqueue 0))])).getD emptyQueue

theorem completes_drive :
    ∃ as c', (drainSystem driveDeps 10000).Run
        (fun _ => StartsFromRequests driveHook (· = driveHttp)) driveWaits as c' ∧
      CompletedWithRow c' (driveJob firstId firstDrive) := by
  have hstarts : ∀ a ∈ sendActions ++ [.step 0 (.webhook (.enqueue 0))],
      StartsFromRequests driveHook (· = driveHttp) a := by
    simp only [sendActions, List.forall_mem_append, List.forall_mem_cons]
    exact ⟨⟨⟨driveHttp, rfl, handle_drive⟩, trivial, by simp⟩, trivial, by simp⟩
  have hreach : (drainSystem driveDeps 10000).Reach
      (fun _ => StartsFromRequests driveHook (· = driveHttp)) driveWaits :=
    ⟨emptyQueue, _, ⟨⟨⟨rfl, rfl, rfl, rfl, rfl⟩, fun _ hmem => absurd hmem List.not_mem_nil,
        fun _ _ hvalue => absurd hvalue (by simp [emptyQueue, Service.freshWorld])⟩, fun _ => rfl⟩,
      System.run_of_isSome (fun a ha _ => hstarts a ha) (by decide +kernel)⟩
  have hqueued : ⟨driveJob firstId firstDrive, 0, .waiting⟩ ∈ driveWaits.shared.queue.entries := by
    have hentries : driveWaits.shared.queue.entries =
      [⟨driveJob firstId firstDrive, 0, .waiting⟩] := rfl
    rw [hentries]
    exact List.mem_singleton_self _
  exact ((completes_iff serviceable_drive hreach hqueued (.inl rfl)).2 (by decide)).mpr
    (by decide +kernel)

end JobQueue

end PureplayIngest
