import PureplayIngest.Ingestion.DuplicateLinks
import PureplayIngest.Ingestion.ShotIngestionQueue
import PureplayIngest.Webhooks.IdempotencyKeys

/-!
What becomes of a shot that has been accepted.

When `enqueue` returns, the shot's job was added or one with its id was known.
A job that is still to be run will be, and one that is completed has left its
row behind. One that has failed for good may have left nothing, and as long as
it is kept a shot that is sent again is accepted and dropped. No attempt records
a failure: it could only be for a time that a controller has let through.
-/

namespace PureplayIngest

open Shared.Domain Shared.Kysely Identity Ingestion Lib Webhooks

namespace JobQueue

def ShotJob.key (job : ShotJob) : Vendor × String := shotKey job.normalisedShot.toShotWithoutPayload

/-- There is a row with the key. -/
def HasRow (db : Database) (key : Vendor × String) : Prop :=
  ∃ row ∈ db.shots, shotKey row.toShotWithoutPayload = key

/-- Still to be run. -/
def Pending (job : QueuedJob) : Prop :=
  job.state = .waiting ∨ (∃ worker, job.state = .active worker) ∨ job.state = .delayed

/-- The accepted shot has its row, its failure is recorded, or a job for it is
still to be run. -/
def Covered (deps : Deps) (w : QueueWorld) (job : ShotJob) : Prop :=
  HasRow w.db (ShotJob.key job) ∨ job.failure deps ∈ w.db.ingestion_failures ∨
    ∃ queued ∈ w.queue.entries, queued.id = job.jobId ∧ Pending queued

/-- A job with the id has failed for good, and no attempt at one has stored the shot. -/
def FailedForGood (w : QueueWorld) (job : ShotJob) : Prop :=
  (∃ queued ∈ w.queue.entries, queued.id = job.jobId ∧ ∃ t, queued.state = .failed t) ∧
    ¬ HasRow w.db (ShotJob.key job)

/-- The runs from an empty queue. -/
def freshSystem (deps : Deps) (maxDepth : ℕ) : System Config Action :=
  (program deps maxDepth).system fun w => w.queue.entries = []

/-- The runs from an empty queue, with no failure recorded. -/
def cleanSystem (deps : Deps) (maxDepth : ℕ) : System Config Action :=
  (program deps maxDepth).system fun w => w.queue.entries = [] ∧ w.db.ingestion_failures = []

/-- The job of a shot that a parser has made, and that a controller has let through. -/
structure Checked (sha256 : String → String) (job : ShotJob) : Prop where
  parsed : ParserProduced sha256 job.normalisedShot
  clock : hasExcessiveClockSkew job.normalisedShot.captured_at_utc job.receivedAtUtc = false

/-- Calls start at their beginning, the jobs of requests are checked, and attempts
are made by workers only. -/
structure StartsChecked (sha256 : String → String) (a : Action) : Prop where
  starts : Starts a
  jobs : ∀ i s, a = .spawn i (.webhook s) → ∀ job ∈ s.jobs, Checked sha256 job
  attempts : ∀ i s, a ≠ .spawn i (.service (.process s))

/-! ### What a step of the service keeps -/

/-- Rows keep their keys, and no failure is recorded. -/
structure Kept (db db' : Database) : Prop where
  shots : ∀ row ∈ db.shots, ∃ row' ∈ db'.shots,
    shotKey row'.toShotWithoutPayload = shotKey row.toShotWithoutPayload
  failures : db'.ingestion_failures = db.ingestion_failures

theorem HasRow.kept {db db' : Database} {key : Vendor × String} (h : Kept db db')
    (hstored : HasRow db key) : HasRow db' key := by
  obtain ⟨row, hrow, rfl⟩ := hstored
  exact h.shots row hrow

theorem upsertIdentity_failures (db : Database) (pair : Vendor × String) (c : String) :
    (upsertIdentity db pair c).1.ingestion_failures = db.ingestion_failures := by
  rw [upsertIdentity]
  split <;> rfl

theorem linkTransaction_failures {db db' : Database} {pair : Vendor × String} {c actor : String}
    {row : VendorIdentity} (h : linkTransaction db pair c actor = some (db', row)) :
    db'.ingestion_failures = db.ingestion_failures := by
  rw [linkTransaction] at h
  split at h
  · obtain ⟨rfl, _⟩ := Prod.mk.inj (Option.some.inj h)
    exact upsertIdentity_failures db pair c
  · exact absurd h (by simp)

theorem unlinkTransaction_failures {db db' : Database} {pair : Vendor × String} {c actor : String}
    (h : unlinkTransaction db pair c actor = some db') :
    db'.ingestion_failures = db.ingestion_failures := by
  simp only [unlinkTransaction] at h
  split at h
  · obtain rfl := Option.some.inj h
    rfl
  · exact absurd h (by simp)

theorem upsertIfNew_failures {db db' : Database} {shot : NormalisedShot} {result : UpsertResult}
    (h : upsertIfNew db shot = some (db', result)) :
    db'.ingestion_failures = db.ingestion_failures := by
  cases (upsertIfNew_cases h).2 with
  | duplicate existing mem key heq => rw [heq]
  | inserted fresh id heq => rw [heq]; rfl

theorem listStep_failures {w w' : Stores} {s s' : ListState} {rows : List VendorIdentity}
    (h : s.step w rows = some (w', s')) : w'.db.ingestion_failures = w.db.ingestion_failures := by
  cases s with
  | get c actor =>
      simp only [ListState.step] at h
      split at h
      · exact (Prod.mk.inj (Option.some.inj h)).1 ▸ rfl
      · exact absurd h (by simp)
      · exact (Prod.mk.inj (Option.some.inj h)).1 ▸ rfl
  | select c actor =>
      simp only [ListState.step] at h
      split at h
      · exact (Prod.mk.inj (Option.some.inj h)).1 ▸ rfl
      · exact absurd h (by simp)
  | set c actor rows => exact (Prod.mk.inj (Option.some.inj h)).1 ▸ rfl
  | audit c actor rows => exact (Prod.mk.inj (Option.some.inj h)).1 ▸ rfl
  | finished c rows => exact absurd h (by simp [ListState.step])

theorem linkStep_failures {w w' : Stores} {s s' : LinkState} (h : s.step w = some (w', s')) :
    w'.db.ingestion_failures = w.db.ingestion_failures := by
  cases s with
  | commit pair c actor =>
      obtain ⟨⟨db, row⟩, hlink, heq⟩ := Option.map_eq_some_iff.mp h
      obtain ⟨rfl, _⟩ := Prod.mk.inj heq
      exact linkTransaction_failures hlink
  | del pair c row => exact (Prod.mk.inj (Option.some.inj h)).1 ▸ rfl
  | backfill pair c row => exact (Prod.mk.inj (Option.some.inj h)).1 ▸ rfl
  | finished pair c row b => exact absurd h (by simp [LinkState.step])
  | rejected pair c committed => exact absurd h (by simp [LinkState.step])

theorem unlinkStep_failures {w w' : Stores} {s s' : UnlinkState} (h : s.step w = some (w', s')) :
    w'.db.ingestion_failures = w.db.ingestion_failures := by
  cases s with
  | commit pair c actor =>
      simp only [UnlinkState.step] at h
      split at h
      · rename_i db hunlink
        obtain ⟨rfl, _⟩ := Prod.mk.inj (Option.some.inj h)
        exact unlinkTransaction_failures hunlink
      · exact (Prod.mk.inj (Option.some.inj h)).1 ▸ rfl
  | del pair c => exact (Prod.mk.inj (Option.some.inj h)).1 ▸ rfl
  | finished pair c => exact absurd h (by simp [UnlinkState.step])
  | notFound pair c => exact absurd h (by simp [UnlinkState.step])
  | rejected pair c committed => exact absurd h (by simp [UnlinkState.step])

section

variable {deps : Deps} {w w' : World}

/-- Only an attempt that finds its shot skewed records a failure. -/
theorem processStep_failures {s s' : ProcessState} {k : ℕ}
    (hclock : ∀ job, s ≠ .recordFailure job) (h : ProcessStep deps w k s w' s') :
    w'.db.ingestion_failures = w.db.ingestion_failures := by
  cases h with
  | recordFailure job => exact absurd rfl (hclock job)
  | resolving job hcall => exact congrArg _ (ResolveState.step_db hcall)
  | duplicate job hupsert => exact upsertIfNew_failures hupsert
  | inserted job hupsert => exact upsertIfNew_failures hupsert
  | _ => rfl

theorem step_failures {call call' : Call} {label : Label}
    (hclock : ∀ job, call ≠ .process (.recordFailure job))
    (h : Service.step deps w call label = some (w', call')) :
    w'.db.ingestion_failures = w.db.ingestion_failures := by
  cases Service.step_cases h with
  | process hstep =>
      refine processStep_failures (fun job hs => hclock job ?_) (ProcessState.step_cases hstep)
      rw [hs]
  | resolve k hstep => exact congrArg _ (ResolveState.step_db hstep)
  | link k hstep => exact linkStep_failures hstep
  | unlink k hstep => exact unlinkStep_failures hstep
  | list hstep => exact listStep_failures hstep
  | _ => rfl

theorem step_kept {call call' : Call} {label : Label}
    (hclock : ∀ job, call ≠ .process (.recordFailure job))
    (h : Service.step deps w call label = some (w', call')) : Kept w.db w'.db := by
  refine ⟨fun row hrow => ?_, step_failures hclock h⟩
  cases step_shotsEffect h with
  | frame hshots => exact ⟨row, hshots ▸ hrow, rfl⟩
  | insert job haccepted hkey hid hshots =>
      rw [hshots]
      exact ⟨row, List.mem_append_left _ hrow, rfl⟩
  | flag job shot id origin hshots =>
      rw [hshots]
      refine ⟨_, List.mem_map_of_mem hrow, ?_⟩
      split <;> rfl
  | backfill pair user identity hshots =>
      rw [hshots]
      refine ⟨_, List.mem_map_of_mem hrow, ?_⟩
      split <;> rfl

theorem process_kept {s s' : ProcessState} {k : ℕ} (hclock : ∀ job, s ≠ .recordFailure job)
    (hstep : s.step deps w k = some (w', s')) : Kept w.db w'.db := by
  have h : Service.step deps w (.process s) (.ok k) = some (w', .process s') := by
    rw [Service.step, hstep, Option.map_some]
  exact step_kept (fun job hs => hclock job (Call.process.inj hs)) h

/-- The other calls make no attempts. -/
theorem step_not_process {call call' : Call} {label : Label} (hcall : ∀ s, call ≠ .process s)
    (h : Service.step deps w call label = some (w', call')) : ∀ s, call' ≠ .process s := by
  cases Service.step_cases h with
  | process hstep => exact absurd rfl (hcall _)
  | processFail hfail => exact absurd rfl (hcall _)
  | _ => simp

end

/-! ### Attempts -/

def jobOfAttempt : ProcessState → ShotJob
  | .recordFailure job => job
  | .resolving job _ => job
  | .upsert job _ => job
  | .lookup job _ _ => job
  | .flag job _ _ _ => job
  | .patchOutbox job _ _ => job
  | .returned job => job
  | .failed job => job

/-- The attempt has found or inserted the row of its shot. -/
def HasStored : ProcessState → Prop
  | .lookup _ _ _ => True
  | .flag _ _ _ _ => True
  | .patchOutbox _ _ _ => True
  | .returned _ => True
  | _ => False

structure AttemptInv (deps : Deps) (db : Database) (jobId : String) (s : ProcessState) : Prop where
  id : (jobOfAttempt s).jobId = jobId
  parsed : ParserProduced deps.sha256 (jobOfAttempt s).normalisedShot
  clock : ∀ job, s ≠ .recordFailure job
  upsert : ∀ job shot, s = .upsert job shot → shotKey shot.toShotWithoutPayload = ShotJob.key job
  stored : HasStored s → HasRow db (ShotJob.key (jobOfAttempt s))

section

variable {deps : Deps} {w w' : World} {db : Database} {jobId : String} {s s' : ProcessState}

theorem AttemptInv.kept {db' : Database} (hinv : AttemptInv deps db jobId s) (h : Kept db db') :
    AttemptInv deps db' jobId s :=
  ⟨hinv.id, hinv.parsed, hinv.clock, hinv.upsert, fun hs => (hinv.stored hs).kept h⟩

/-- The worker checks what the controller has checked. -/
theorem Checked.process_eq {sha256 : String → String} {job : ShotJob} (h : Checked sha256 job) :
    process job = .resolving job
      (resolveCanonicalUserId job.normalisedShot.vendor job.normalisedShot.vendor_user_id) := by
  simp [process, h.clock]

theorem attemptInv_process {job : ShotJob} (hid : job.jobId = jobId)
    (hchecked : Checked deps.sha256 job) : AttemptInv deps db jobId (process job) := by
  rw [hchecked.process_eq]
  exact ⟨hid, hchecked.parsed, by simp, fun _ _ heq => absurd heq (by simp), fun h => h.elim⟩

/-- An attempt that has got as far as to look for an origin goes on with its row stored. -/
theorem AttemptInv.of_stored (hjob : jobOfAttempt s' = jobOfAttempt s)
    (hinv : AttemptInv deps db jobId s) (hclock : ∀ job, s' ≠ .recordFailure job)
    (hupsert : ∀ job shot, s' ≠ .upsert job shot) {db' : Database}
    (hstored : HasRow db' (ShotJob.key (jobOfAttempt s))) : AttemptInv deps db' jobId s' where
  id := hjob ▸ hinv.id
  parsed := hjob ▸ hinv.parsed
  clock := hclock
  upsert job shot heq := absurd heq (hupsert job shot)
  stored _ := hjob ▸ hstored

theorem resolvedShot_key (shot : NormalisedShot) (user : Option String) :
    shotKey (resolvedShot shot user).toShotWithoutPayload = shotKey shot.toShotWithoutPayload := by
  obtain ⟨c, hc⟩ := resolvedShot_eq shot user
  rw [hc]
  rfl

theorem AttemptInv.step {k : ℕ} (hinv : AttemptInv deps w.db jobId s)
    (hstep : s.step deps w k = some (w', s')) : AttemptInv deps w'.db jobId s' := by
  -- Once the job has left a row, no later step takes it away.
  have hkept : Kept w.db w'.db := process_kept hinv.clock hstep
  cases ProcessState.step_cases hstep with
  | recordFailure job => exact absurd rfl (hinv.clock job)
  | resolving job hcall =>
      rename_i call call' stores
      cases call' with
      | returned pair user =>
          refine ⟨hinv.id, hinv.parsed, by simp [Ingestion.afterResolve],
            fun job' shot heq => ?_, fun h => h.elim⟩
          obtain ⟨rfl, rfl⟩ := ProcessState.upsert.inj heq
          exact resolvedShot_key _ user
      | _ => exact ⟨hinv.id, hinv.parsed, by simp [Ingestion.afterResolve],
          fun _ _ heq => absurd heq (by simp [Ingestion.afterResolve]), fun h => h.elim⟩
  | duplicate job hupsert =>
      have hkey := hinv.upsert job _ rfl
      cases (upsertIfNew_cases hupsert).2 with
      | duplicate existing mem key heq =>
          refine hinv.of_stored (by rfl) (by simp) (by simp)
            (HasRow.kept hkept ⟨existing, mem, ?_⟩)
          exact key.trans hkey
  | inserted job hupsert =>
      have hkey := hinv.upsert job _ rfl
      cases (upsertIfNew_cases hupsert).2 with
      | inserted fresh id heq =>
          refine hinv.of_stored (by rfl) (by simp) (by simp) ⟨_, ?_, hkey⟩
          rw [heq]
          exact List.mem_append_right _ (List.mem_singleton_self _)
  | accepted job id hnone =>
      exact hinv.of_stored (by rfl) (by simp) (by simp) ((hinv.stored trivial).kept hkept)
  | choose job id hrows horigin =>
      exact hinv.of_stored (by rfl) (by simp) (by simp) ((hinv.stored trivial).kept hkept)
  | flag job shot id origin =>
      exact hinv.of_stored (by rfl) (by simp) (by simp) ((hinv.stored trivial).kept hkept)

theorem AttemptInv.fail (hinv : AttemptInv deps db jobId s) (hfail : s.fail = some s') :
    AttemptInv deps db jobId s' := by
  cases s with
  | returned job => exact absurd hfail (by simp [ProcessState.fail])
  | failed job => exact absurd hfail (by simp [ProcessState.fail])
  | _ =>
      obtain rfl := Option.some.inj hfail
      exact ⟨hinv.id, hinv.parsed, by simp, fun _ _ heq => absurd heq (by simp), fun h => h.elim⟩

end

/-! ### The jobs of the queue -/

/-- Shots with one key are of one vendor. -/
theorem key_eq_of_jobId {sha256 : String → String} {a b : ShotJob}
    (ha : ParserProduced sha256 a.normalisedShot) (hb : ParserProduced sha256 b.normalisedShot)
    (h : a.jobId = b.jobId) : ShotJob.key a = ShotJob.key b := by
  refine Prod.ext ?_ h
  by_contra hvendor
  exact keys_of_vendors_differ ha hb hvendor h

/-- Jobs are checked, those of completed ones are stored, and no failure is recorded. -/
structure JobsInv (deps : Deps) (db : Database) (q : Queue) : Prop where
  checked : ∀ queued ∈ q.entries, Checked deps.sha256 queued.data
  completed : ∀ queued ∈ q.entries, ∀ t, queued.state = .completed t →
    HasRow db (ShotJob.key queued.data)
  failures : db.ingestion_failures = []

section

variable {deps : Deps} {db : Database} {q : Queue} {jobId : String} {worker : ℕ} {now : ℤ}

theorem JobsInv.kept {db' : Database} (hinv : JobsInv deps db q) (h : Kept db db') :
    JobsInv deps db' q :=
  ⟨hinv.checked, fun queued hmem t ht => (hinv.completed queued hmem t ht).kept h,
    h.failures.trans hinv.failures⟩

/-- A change of the state of a job, that completes it only when it is stored. -/
theorem JobsInv.setState {f : QueuedJob → QueuedJob} {hf : ∀ job, (f job).data = job.data}
    (hinv : JobsInv deps db q)
    (hcompleted : ∀ job ∈ q.entries, job.id = jobId → ∀ t, (f job).state = .completed t →
      job.state = .completed t ∨ HasRow db (ShotJob.key job.data)) :
    JobsInv deps db (Queue.setState q jobId f hf) := by
  refine ⟨?_, ?_, hinv.failures⟩
  · intro queued hmem
    obtain ⟨hmem, _⟩ | ⟨old, hold, hid, rfl⟩ := (Keyed.mem_modify _).mp hmem
    · exact hinv.checked queued hmem
    · rw [hf]
      exact hinv.checked old hold
  · intro queued hmem t ht
    obtain ⟨hmem, _⟩ | ⟨old, hold, hid, rfl⟩ := (Keyed.mem_modify _).mp hmem
    · exact hinv.completed queued hmem t ht
    · rw [hf]
      obtain ht | hstored := hcompleted old hold hid t ht
      · exact hinv.completed old hold t ht
      · exact hstored

theorem JobsInv.take (hinv : JobsInv deps db q) : JobsInv deps db (Queue.take q worker jobId) :=
  hinv.setState fun _ _ _ _ ht => absurd ht (by simp)

theorem JobsInv.toWaiting (hinv : JobsInv deps db q) : JobsInv deps db (Queue.toWaiting q jobId) :=
  hinv.setState fun _ _ _ _ ht => absurd ht (by simp)

theorem JobsInv.moveToFailed (hinv : JobsInv deps db q) :
    JobsInv deps db (Queue.moveToFailed q worker jobId now) := by
  refine hinv.setState fun job _ _ t ht => ?_
  split at ht
  · split at ht <;> exact absurd ht (by simp)
  · exact .inl ht

theorem JobsInv.moveToCompleted (hinv : JobsInv deps db q)
    (hstored : ∀ job ∈ q.entries, job.id = jobId → HasRow db (ShotJob.key job.data)) :
    JobsInv deps db (Queue.moveToCompleted q worker jobId now) :=
  hinv.setState fun job hjob hid _ _ => .inr (hstored job hjob hid)

theorem JobsInv.remove (hinv : JobsInv deps db q) : JobsInv deps db (q.remove jobId) :=
  ⟨fun queued hmem => hinv.checked queued (Keyed.mem_remove.mp hmem).1,
    fun queued hmem => hinv.completed queued (Keyed.mem_remove.mp hmem).1, hinv.failures⟩

theorem JobsInv.add (hinv : JobsInv deps db q) {job : ShotJob}
    (hchecked : Checked deps.sha256 job) : JobsInv deps db (q.add ⟨job, 0, .waiting⟩) := by
  refine ⟨fun queued hmem => ?_, fun queued hmem t ht => ?_, hinv.failures⟩
  · obtain hmem | ⟨rfl, _⟩ := Keyed.mem_add.mp hmem
    · exact hinv.checked queued hmem
    · exact hchecked
  · obtain hmem | ⟨rfl, _⟩ := Keyed.mem_add.mp hmem
    · exact hinv.completed queued hmem t ht
    · exact absurd ht (by simp)

end

/-! ### Runs -/

section

variable {deps : Deps} {maxDepth i : ℕ} {c c' : Config} {a : Action} {w w' : QueueWorld}

/-- What holds of a thread's local state. -/
def ThreadInv (deps : Deps) (_ : ℕ) (w : QueueWorld) : QueueCall → Prop
  | .webhook s => ∀ job ∈ s.jobs, Checked deps.sha256 job
  | .worker (.running jobId s) => AttemptInv deps w.db jobId s
  | .worker _ => True
  | .service call => ∀ s, call ≠ .process s

abbrev DeliveryInv (deps : Deps) (c : Config) : Prop :=
  Program.Inv (fun w => JobsInv deps w.db w.queue) (ThreadInv deps) c

theorem ThreadInv.kept {j : ℕ} {call : QueueCall} (hinv : ThreadInv deps j w call)
    (h : Kept w.db w'.db) : ThreadInv deps j w' call := by
  cases call with
  | webhook s => exact hinv
  | worker s =>
      cases s with
      | running jobId s => exact AttemptInv.kept hinv h
      | _ => trivial
  | service call => exact hinv

theorem EnqueueStep.jobsInv {q q' : Queue} {s s' : EnqueueState}
    (h : EnqueueStep maxDepth q s q' s') (hinv : JobsInv deps w.db q)
    (hchecked : Checked deps.sha256 s.job) : JobsInv deps w.db q' := by
  cases h with
  | added job hnew => exact hinv.add hchecked
  | _ => exact hinv

theorem WebhookStep.jobsInv {q q' : Queue} {s s' : WebhookState} {label : WebhookLabel}
    (h : WebhookStep maxDepth q s label q' s') (hinv : JobsInv deps w.db q)
    (hchecked : ∀ job ∈ s.jobs, Checked deps.sha256 job) : JobsInv deps w.db q' := by
  cases h with
  | enqueue hcall hstep =>
      exact hstep.jobsInv hinv
        (hchecked _ (List.mem_map_of_mem (f := (·.job)) (List.mem_of_getElem? hcall)))
  | _ => exact hinv

/-- A worker's step keeps what is known of the jobs and of its attempt, and what is stored. -/
theorem WorkerStep.inv {s s' : WorkerState} {label : WorkerLabel}
    (h : WorkerStep deps i w s label w' s') (hinv : JobsInv deps w.db w.queue)
    (hown : ThreadInv deps i w (.worker s)) :
    JobsInv deps w'.db w'.queue ∧ ThreadInv deps i w' (.worker s') ∧ Kept w.db w'.db := by
  have hsame : Kept w.db w.db := ⟨fun row hrow => ⟨row, hrow, rfl⟩, rfl⟩
  cases h with
  | take hjob hwaiting =>
      obtain ⟨hmem, hid⟩ := Keyed.mem_of_find hjob
      exact ⟨hinv.take, attemptInv_process hid (hinv.checked _ hmem), hsame⟩
  | @process jobId s s' k world hstep =>
      have hattempt : AttemptInv deps w.db jobId s := hown
      have hkept : Kept w.db world.db := process_kept hattempt.clock hstep
      exact ⟨hinv.kept hkept, AttemptInv.step hown hstep, hkept⟩
  | fail jobId hfail => exact ⟨hinv, AttemptInv.fail hown hfail, hsame⟩
  | complete jobId job =>
      have hattempt : AttemptInv deps w.db jobId (.returned job) := hown
      refine ⟨hinv.moveToCompleted fun queued hmem hid => ?_, trivial, hsame⟩
      rw [key_eq_of_jobId (hinv.checked queued hmem).parsed hattempt.parsed
        (hid.trans hattempt.id.symm)]
      exact hattempt.stored trivial
  | giveUp jobId job => exact ⟨hinv.moveToFailed, trivial, hsame⟩

theorem EventStep.inv {x : QueueEvent} (h : EventStep w x w') (hinv : JobsInv deps w.db w.queue) :
    JobsInv deps w'.db w'.queue ∧ Kept w.db w'.db := by
  have hsame : Kept w.db w.db := ⟨fun row hrow => ⟨row, hrow, rfl⟩, rfl⟩
  cases h with
  | @service x world hevent =>
      have hkept : Kept w.db world.db := by
        cases x with
        | expire key => exact Option.some.inj hevent ▸ hsame
        | tick ms => exact Option.some.inj hevent ▸ ⟨fun row hrow => ⟨row, hrow, rfl⟩, rfl⟩
      exact ⟨hinv.kept hkept, hkept⟩
  | promote hjob hdelayed => exact ⟨hinv.toWaiting, hsame⟩
  | stalled hjob hactive => exact ⟨hinv.toWaiting, hsame⟩
  | remove hjob hexpired => exact ⟨hinv.remove, hsame⟩

theorem step_inv (hinv : DeliveryInv deps c) (hstart : StartsChecked deps.sha256 a)
    (hexec : (program deps maxDepth).exec c a = some c') : DeliveryInv deps c' := by
  refine hinv.step hexec (fun j p ha => ?_) (fun j e p w' r ha hj hstep => ?_)
    (fun x w' ha hevent => ?_)
  · subst ha
    cases p with
    | webhook s => exact hstart.jobs j s rfl
    | worker s =>
        obtain rfl : s = .idle := hstart.starts
        trivial
    | service call => exact fun s hs => hstart.attempts j s (by rw [hs])
  · have hown := hinv.threads j _ hj
    cases step_cases hstep with
    | webhook hwebhook =>
        refine ⟨hwebhook.jobsInv hinv.shared hown, ?_, fun k r _ hk => ?_⟩
        · show ∀ job ∈ _, _
          rw [hwebhook.jobs_eq]
          exact hown
        · exact (hinv.threads k r hk).kept ⟨fun row hrow => ⟨row, hrow, rfl⟩, rfl⟩
    | worker hworker =>
        obtain ⟨hjobs, hown', hkept⟩ := hworker.inv hinv.shared hown
        exact ⟨hjobs, hown', fun k r _ hk => (hinv.threads k r hk).kept hkept⟩
    | service hservice =>
        have hkept := step_kept (fun job hs => hown _ hs) hservice
        exact ⟨hinv.shared.kept hkept, step_not_process hown hservice,
          fun k r _ hk => (hinv.threads k r hk).kept hkept⟩
  · obtain ⟨hjobs, hkept⟩ := (event_cases hevent).inv hinv.shared
    exact ⟨hjobs, fun k r hk => (hinv.threads k r hk).kept hkept⟩

theorem deliveryInv_of_empty (hempty : c.shared.queue.entries = [])
    (hfailures : c.shared.db.ingestion_failures = []) (hidle : ∀ i, c.threads i = none) :
    DeliveryInv deps c := by
  have hnone {queued : QueuedJob} (hmem : queued ∈ c.shared.queue.entries) : False :=
    absurd (hempty ▸ hmem) List.not_mem_nil
  exact ⟨⟨fun _ hmem => (hnone hmem).elim, fun _ hmem => (hnone hmem).elim, hfailures⟩,
    fun j p hj => absurd ((hidle j).symm.trans hj) (by simp)⟩

theorem reach_inv
    (h : (cleanSystem deps maxDepth).Reach (fun _ => StartsChecked deps.sha256) c) :
    DeliveryInv deps c :=
  h.invariant (fun _ h₀ => deliveryInv_of_empty h₀.1.1 h₀.1.2 h₀.2)
    fun _ _ _ hinv hstart hexec => step_inv hinv hstart hexec

/-- What is known of the job that an enqueue call finds. -/
theorem JobsInv.covered {job : ShotJob} (hinv : JobsInv deps w.db w.queue)
    (hparsed : ParserProduced deps.sha256 job.normalisedShot) {queued : QueuedJob}
    (hmem : queued ∈ w.queue.entries) (hid : queued.id = job.jobId)
    (hnot : ¬ FailedForGood w job) : Covered deps w job := by
  cases hstate : queued.state with
  | waiting => exact .inr (.inr ⟨queued, hmem, hid, .inl hstate⟩)
  | active worker => exact .inr (.inr ⟨queued, hmem, hid, .inr (.inl ⟨worker, hstate⟩)⟩)
  | delayed => exact .inr (.inr ⟨queued, hmem, hid, .inr (.inr hstate)⟩)
  | completed t =>
      rw [Covered, ← key_eq_of_jobId (hinv.checked queued hmem).parsed hparsed hid]
      exact .inl (hinv.completed queued hmem t hstate)
  | failed t =>
      by_contra hcovered
      exact hnot ⟨⟨queued, hmem, hid, t, hstate⟩, fun hstored => hcovered (.inl hstored)⟩

/-- What an accepted shot has. In every run, when a call of `enqueue` returns,
the shot's row or its failure is there, or a job for it is still to be run, exactly
if the queue did not hold a job with its id that had failed for good without a
row. It is never a failure that is there, as none is recorded. -/
theorem accepted_covered_iff
    (hreach : (cleanSystem deps maxDepth).Reach (fun _ => StartsChecked deps.sha256) c)
    {calls : List EnqueueState} {k : ℕ} {job : ShotJob}
    (hi : c.threads i = some (.webhook (.enqueuing calls))) (hcall : calls[k]? = some (.add job))
    (hexec : (program deps maxDepth).exec c (.step i (.webhook (.enqueue k))) = some c') :
    (Covered deps c'.shared job ↔ ¬ FailedForGood c.shared job) ∧
      c'.shared.db.ingestion_failures = [] := by
  have hinv := reach_inv hreach
  have hchecked : Checked deps.sha256 job :=
    hinv.threads i _ hi job (List.mem_map_of_mem (f := (·.job)) (List.mem_of_getElem? hcall))
  -- The step adds the job unless its id is known, and touches nothing else.
  obtain rfl : c' = ⟨{ c.shared with queue := c.shared.queue.add ⟨job, 0, .waiting⟩ },
      Function.update c.threads i (some (.webhook (.enqueuing
        (calls.set k (.returned job (¬ c.shared.queue.Known job.jobId))))))⟩ := by
    simp only [Program.exec, hi, program, step, WebhookState.step, hcall, Option.bind_some,
      EnqueueState.step, Option.map_some, Option.some.injEq] at hexec
    exact hexec.symm
  refine ⟨⟨?_, ?_⟩, hinv.shared.failures⟩
  · rintro (hstored | hfailure | ⟨queued, hmem, hid, hpending⟩)
      ⟨⟨failed, hfailed, hid', t, ht⟩, hnot⟩
    · exact hnot hstored
    · exact absurd (hinv.shared.failures ▸ hfailure) List.not_mem_nil
    · have hknown : c.shared.queue.Known job.jobId := ⟨failed, hfailed, hid'⟩
      rw [Keyed.add_of_known hknown] at hmem
      obtain rfl := Keyed.eq_of_key hmem hfailed (hid.trans hid'.symm)
      rw [Pending, ht] at hpending
      simp at hpending
  · intro hnot
    by_cases hknown : c.shared.queue.Known job.jobId
    · rw [Keyed.add_of_known hknown]
      obtain ⟨queued, hmem, hid⟩ := hknown
      exact hinv.shared.covered hchecked.parsed hmem hid hnot
    · exact .inr (.inr ⟨⟨job, 0, .waiting⟩, Keyed.mem_add.mpr (.inr ⟨rfl, hknown⟩), rfl, .inl rfl⟩)

end

/-! ### A shot that is sent again -/

def emptyQueue : Config where
  shared := { Service.freshWorld with queue := .empty }
  threads := fun _ => none

def driveRequest (ulid : String) : QueueCall :=
  .webhook (.enqueuing [.check (driveJob ulid firstDrive)])

def driveJobId : String := (driveJob firstId firstDrive).jobId

/-- The drive is sent, and its job is to be added. -/
def sendActions : List Action := [.spawn 0 (driveRequest firstId), .step 0 (.webhook (.enqueue 0))]

/-- An attempt of worker `i` at the job, that fails at its first step. -/
def failedAttempt (i : ℕ) : List Action :=
  [.spawn i (.worker .idle), .step i (.worker (.take driveJobId)), .step i (.worker .fail),
    .step i (.worker .finish)]

/-- The job of the drive fails five times; then the drive is sent again. -/
def resendActions : List Action :=
  sendActions ++ [.step 0 (.webhook (.enqueue 0))] ++
    failedAttempt 1 ++ [.env (.promote driveJobId)] ++
    failedAttempt 2 ++ [.env (.promote driveJobId)] ++
    failedAttempt 3 ++ [.env (.promote driveJobId)] ++
    failedAttempt 4 ++ [.env (.promote driveJobId)] ++ failedAttempt 5 ++
    [.spawn 6 (driveRequest secondId), .step 6 (.webhook (.enqueue 0))]

def beforeSend : Config :=
  ((cleanSystem driveDeps 10000).execAll emptyQueue sendActions).getD emptyQueue

def beforeResend : Config :=
  ((cleanSystem driveDeps 10000).execAll emptyQueue resendActions).getD emptyQueue

/-- The configuration after the enqueue call of request `i` has added its job. -/
def afterAdd (c : Config) (i : ℕ) : Config :=
  ((program driveDeps 10000).exec c (.step i (.webhook (.enqueue 0)))).getD c

theorem exec_afterAdd {c : Config} {i : ℕ}
    (h : ((program driveDeps 10000).exec c (.step i (.webhook (.enqueue 0)))).isSome = true) :
    (program driveDeps 10000).exec c (.step i (.webhook (.enqueue 0))) = some (afterAdd c i) := by
  obtain ⟨d, hd⟩ := Option.isSome_iff_exists.mp h
  rw [afterAdd, hd, Option.getD_some]

theorem startsChecked_drive {i : ℕ} {ulid : String} :
    StartsChecked driveDeps.sha256 (.spawn i (driveRequest ulid)) := by
  refine ⟨.inr ⟨_, rfl⟩, fun j s heq job hjob => ?_, by simp [driveRequest]⟩
  obtain ⟨_, hcall⟩ := Action.spawn.inj heq
  obtain rfl := QueueCall.webhook.inj hcall
  obtain rfl := List.mem_singleton.mp hjob
  exact ⟨parserProduced_driveShot, rfl⟩

theorem startsChecked_step {i : ℕ} {label : QueueLabel} {sha256 : String → String} :
    StartsChecked sha256 (.step i label) :=
  ⟨trivial, fun _ _ heq => absurd heq (by simp), by simp⟩

theorem startsChecked_worker {i : ℕ} {sha256 : String → String} :
    StartsChecked sha256 (.spawn i (.worker .idle)) :=
  ⟨rfl, fun _ _ heq => absurd heq (by simp), by simp⟩

theorem startsChecked_env {x : QueueEvent} {sha256 : String → String} :
    StartsChecked sha256 (.env x) :=
  ⟨trivial, fun _ _ heq => absurd heq (by simp), by simp⟩

/-- A shot that is sent again after its job has failed for good is accepted and dropped. -/
theorem accepted_not_covered :
    ¬ ∀ (deps : Deps) (maxDepth i k : ℕ) (c c' : Config) (calls : List EnqueueState)
      (job : ShotJob),
      (cleanSystem deps maxDepth).Reach (fun _ => StartsChecked deps.sha256) c →
      c.threads i = some (.webhook (.enqueuing calls)) → calls[k]? = some (.add job) →
      (program deps maxDepth).exec c (.step i (.webhook (.enqueue k))) = some c' →
      Covered deps c'.shared job := by
  intro h
  have hstarts : ∀ a ∈ resendActions, StartsChecked driveDeps.sha256 a := by
    simp only [resendActions, sendActions, failedAttempt, List.forall_mem_append,
      List.forall_mem_cons, startsChecked_drive, startsChecked_step, startsChecked_worker,
      startsChecked_env]
    simp
  have hreach : (cleanSystem driveDeps 10000).Reach (fun _ => StartsChecked driveDeps.sha256)
      beforeResend :=
    ⟨emptyQueue, resendActions, ⟨⟨rfl, rfl⟩, fun _ => rfl⟩,
      System.run_of_isSome (fun a ha _ => hstarts a ha) (by decide)⟩
  have hcovered := h driveDeps 10000 6 0 beforeResend (afterAdd beforeResend 6) _ _ hreach rfl rfl
    (exec_afterAdd (by decide))
  have hstates : (afterAdd beforeResend 6).shared.queue.entries.map (·.state) =
      [.failed 1710498600000] := by
    decide
  have hshots : (afterAdd beforeResend 6).shared.db.shots.length = 0 := by decide
  have hfailures : (afterAdd beforeResend 6).shared.db.ingestion_failures.length = 0 := by
    decide
  obtain ⟨row, hrow, _⟩ | hfailure | ⟨queued, hmem, _, hpending⟩ := hcovered
  · exact absurd hrow (List.eq_nil_of_length_eq_zero hshots ▸ List.not_mem_nil)
  · exact absurd hfailure (List.eq_nil_of_length_eq_zero hfailures ▸ List.not_mem_nil)
  · have hstate : queued.state ∈ [JobState.failed 1710498600000] :=
      hstates ▸ List.mem_map_of_mem hmem
    rw [Pending, List.mem_singleton.mp hstate] at hpending
    simp at hpending

/-- When it is sent for the first time, its job is then waiting. -/
theorem accepted_covered_iff_send : Covered driveDeps (afterAdd beforeSend 0).shared
    (driveJob firstId firstDrive) := by
  have hstarts : ∀ a ∈ sendActions, StartsChecked driveDeps.sha256 a := by
    simp only [sendActions, List.forall_mem_cons, startsChecked_drive, startsChecked_step]
    simp
  have hreach : (cleanSystem driveDeps 10000).Reach (fun _ => StartsChecked driveDeps.sha256)
      beforeSend :=
    ⟨emptyQueue, sendActions, ⟨⟨rfl, rfl⟩, fun _ => rfl⟩,
      System.run_of_isSome (fun a ha _ => hstarts a ha) (by decide)⟩
  have hempty : beforeSend.shared.queue.entries.length = 0 := by decide
  refine (accepted_covered_iff hreach (i := 0) (k := 0) rfl rfl
    (exec_afterAdd (by decide))).1.mpr ?_
  rintro ⟨⟨queued, hmem, _⟩, _⟩
  exact absurd hmem (List.eq_nil_of_length_eq_zero hempty ▸ List.not_mem_nil)

end JobQueue

end PureplayIngest
