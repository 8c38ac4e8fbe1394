import PureplayIngest.Ingestion.ShotsEffect
import PureplayIngest.Lib.Keyed

/-!
`ShotIngestionQueue`, its producers and its workers, beside the rest of the
service.

The queue is BullMQ's: a job is added unless one with its id is known, in
whatever state that is; a worker takes a waiting job and runs `process`, and
the job is then completed, or to be run again after a delay, or failed for
good. Finished jobs stay for as long as the options of the job say.

A webhook request is one thread: the enqueue calls of a batch run
concurrently, so each step is that of any one of them.
-/

namespace PureplayIngest

open Shared.Domain Shared.Kysely Identity Ingestion Lib

namespace Ingestion

inductive JobState
  | waiting
  | active (worker : ℕ)
  | delayed
  | completed (finishedOn : ℤ)
  | failed (finishedOn : ℤ)
  deriving DecidableEq

/-- `jobId: shot.idempotency_key`. -/
def ShotJob.jobId (job : ShotJob) : String := job.normalisedShot.idempotency_key

structure QueuedJob where
  data : ShotJob
  attemptsMade : ℕ
  state : JobState

def QueuedJob.id (job : QueuedJob) : String := job.data.jobId

abbrev Queue := Keyed QueuedJob.id

/-- `attempts`, and the ages in seconds at which finished jobs are removed. -/
def attempts : ℕ := 5
def removeOnComplete : ℤ := 86400
def removeOnFail : ℤ := 86400 * 7

namespace Queue

def getWaitingCount (q : Queue) : ℕ := q.entries.countP fun job => job.state = .waiting

def setState (q : Queue) (jobId : String) (f : QueuedJob → QueuedJob)
    (hf : ∀ job, (f job).data = job.data) : Queue :=
  q.modify jobId f fun job => congrArg ShotJob.jobId (hf job)

/-- A worker takes a job. -/
def take (q : Queue) (worker : ℕ) (jobId : String) : Queue :=
  q.setState jobId (fun job => { job with state := .active worker }) fun _ => rfl

/-- A worker that still holds a job ends its attempt. -/
def moveToCompleted (q : Queue) (worker : ℕ) (jobId : String) (now : ℤ) : Queue :=
  q.setState jobId
    (fun job => if job.state = .active worker then { job with state := .completed now } else job)
    fun job => by split <;> rfl

def moveToFailed (q : Queue) (worker : ℕ) (jobId : String) (now : ℤ) : Queue :=
  q.setState jobId
    (fun job =>
      if job.state = .active worker then
        { job with
          attemptsMade := job.attemptsMade + 1
          state := if job.attemptsMade + 1 < attempts then .delayed else .failed now }
      else job)
    fun job => by split <;> rfl

/-- The delay of a job is over, or its worker has been found to be gone. -/
def toWaiting (q : Queue) (jobId : String) : Queue :=
  q.setState jobId (fun job => { job with state := .waiting }) fun _ => rfl

end Queue

/-- When a job that has finished is old enough to be removed. -/
def QueuedJob.expiresAt (job : QueuedJob) : Option ℤ :=
  match job.state with
  | .completed finishedOn => some (finishedOn + removeOnComplete * 1000)
  | .failed finishedOn => some (finishedOn + removeOnFail * 1000)
  | _ => none

def QueuedJob.Expired (now : ℤ) (job : QueuedJob) : Prop := ∃ t ∈ job.expiresAt, t < now

instance (now : ℤ) (job : QueuedJob) : Decidable (job.Expired now) :=
  inferInstanceAs (Decidable (∃ t ∈ job.expiresAt, t < now))

/-- Where a call of `enqueue` is. Of a call that returned it is recorded
whether the job was not known before. -/
inductive EnqueueState
  | check (job : ShotJob)
  | add (job : ShotJob)
  | returned (job : ShotJob) (isNew : Bool)
  | unavailable (job : ShotJob)

def EnqueueState.step (maxDepth : ℕ) (q : Queue) : EnqueueState → Option (Queue × EnqueueState)
  | .check job => some (q, if q.getWaitingCount ≥ maxDepth then .unavailable job else .add job)
  | .add job => some (q.add ⟨job, 0, .waiting⟩, .returned job (¬ q.Known job.jobId))
  | .returned _ _ => none
  | .unavailable _ => none

/-- A webhook request, once its payload is parsed. `enqueuing` has one call of
`enqueue` for each shot; a single shot is enqueued without the check of a batch. -/
inductive WebhookState
  | checkBatchCapacity (jobs : List ShotJob)
  | refused (jobs : List ShotJob)
  | enqueuing (calls : List EnqueueState)

def EnqueueState.job : EnqueueState → ShotJob
  | .check job => job
  | .add job => job
  | .returned job _ => job
  | .unavailable job => job

/-- The jobs a request is for. -/
def WebhookState.jobs : WebhookState → List ShotJob
  | .checkBatchCapacity jobs => jobs
  | .refused jobs => jobs
  | .enqueuing calls => calls.map (·.job)

/-- The capacity check of a batch, or the next step of one of its enqueue calls. -/
inductive WebhookLabel
  | capacity
  | enqueue (k : ℕ)
  deriving DecidableEq

def WebhookState.step (maxDepth : ℕ) (q : Queue) :
    WebhookState → WebhookLabel → Option (Queue × WebhookState)
  | .checkBatchCapacity jobs, .capacity =>
      some (q, if q.getWaitingCount + jobs.length > maxDepth then .refused jobs
        else .enqueuing (jobs.map .check))
  | .enqueuing calls, .enqueue k =>
      calls[k]?.bind fun call =>
        (call.step maxDepth q).map fun (q, call) => (q, .enqueuing (calls.set k call))
  | _, _ => none

/-- A worker: it takes a job, makes an attempt at it and ends the attempt. -/
inductive WorkerState
  | idle
  | running (jobId : String) (s : ProcessState)
  | finished

inductive WorkerLabel
  | take (jobId : String)
  | process (k : ℕ)
  | fail
  | finish
  deriving DecidableEq

structure QueueWorld extends World where
  queue : Queue

def WorkerState.step (deps : Deps) (i : ℕ) (w : QueueWorld) :
    WorkerState → WorkerLabel → Option (QueueWorld × WorkerState)
  | .idle, .take jobId =>
      (w.queue.find jobId).bind fun job =>
        if job.state = .waiting then
          some ({ w with queue := Queue.take w.queue i jobId }, .running jobId (process job.data))
        else none
  | .running jobId s, .process k =>
      (s.step deps w.toWorld k).map fun (world, s) =>
        ({ w with toWorld := world }, .running jobId s)
  | .running jobId s, .fail => s.fail.map fun s => (w, .running jobId s)
  | .running jobId (.returned _), .finish =>
      some ({ w with queue := Queue.moveToCompleted w.queue i jobId w.db.now }, .finished)
  | .running jobId (.failed _), .finish =>
      some ({ w with queue := Queue.moveToFailed w.queue i jobId w.db.now }, .finished)
  | _, _ => none

end Ingestion

namespace JobQueue

inductive QueueCall
  | webhook (s : WebhookState)
  | worker (s : WorkerState)
  | service (call : Call)

inductive QueueLabel
  | webhook (label : WebhookLabel)
  | worker (label : WorkerLabel)
  | service (label : Label)
  deriving DecidableEq

/-- What happens besides the steps of the calls: a delay ends, a job whose
worker is gone is found, a finished job is removed. -/
inductive QueueEvent
  | service (x : Event)
  | promote (jobId : String)
  | stalled (jobId : String)
  | remove (jobId : String)

def step (deps : Deps) (maxDepth : ℕ) (i : ℕ) (w : QueueWorld) :
    QueueCall → QueueLabel → Option (QueueWorld × QueueCall)
  | .webhook s, .webhook label =>
      (s.step maxDepth w.queue label).map fun (queue, s) => ({ w with queue }, .webhook s)
  | .worker s, .worker label => (s.step deps i w label).map fun (w, s) => (w, .worker s)
  | .service call, .service label =>
      (Service.step deps w.toWorld call label).map fun (world, call) =>
        ({ w with toWorld := world }, .service call)
  | _, _ => none

def event (w : QueueWorld) : QueueEvent → Option QueueWorld
  | .service x => (Service.event w.toWorld x).map fun world => { w with toWorld := world }
  | .promote jobId =>
      (w.queue.find jobId).bind fun job =>
        if job.state = .delayed then some { w with queue := Queue.toWaiting w.queue jobId }
        else none
  | .stalled jobId =>
      (w.queue.find jobId).bind fun job =>
        match job.state with
        | .active _ => some { w with queue := Queue.toWaiting w.queue jobId }
        | _ => none
  | .remove jobId =>
      (w.queue.find jobId).bind fun job =>
        if job.Expired w.db.now then some { w with queue := w.queue.remove jobId } else none

def program (deps : Deps) (maxDepth : ℕ) :
    Program ℕ QueueWorld QueueCall QueueLabel QueueEvent where
  step := step deps maxDepth
  env := event

abbrev Config := Lib.Config ℕ QueueWorld QueueCall

abbrev Action := Lib.Action ℕ QueueCall QueueLabel QueueEvent

/-- Requests, workers and other calls start at their beginning. -/
def Starts : Action → Prop
  | .spawn _ (.webhook s) =>
      (∃ jobs, s = .checkBatchCapacity jobs) ∨ ∃ job, s = .enqueuing [.check job]
  | .spawn _ (.worker s) => s = .idle
  | .spawn _ (.service call) => call.Initial
  | _ => True

/-! ### What a step is -/

/-- The steps of an enqueue call. -/
inductive EnqueueStep (maxDepth : ℕ) (q : Queue) : EnqueueState → Queue → EnqueueState → Prop
  | full (job : ShotJob) (hfull : maxDepth ≤ q.getWaitingCount) :
      EnqueueStep maxDepth q (.check job) q (.unavailable job)
  | room (job : ShotJob) (hroom : q.getWaitingCount < maxDepth) :
      EnqueueStep maxDepth q (.check job) q (.add job)
  | known (job : ShotJob) (hknown : q.Known job.jobId) :
      EnqueueStep maxDepth q (.add job) q (.returned job false)
  | added (job : ShotJob) (hnew : ¬ q.Known job.jobId) :
      EnqueueStep maxDepth q (.add job) (q.add ⟨job, 0, .waiting⟩) (.returned job true)

/-- The steps of a request. -/
inductive WebhookStep (maxDepth : ℕ) (q : Queue) :
    WebhookState → WebhookLabel → Queue → WebhookState → Prop
  | refuse (jobs : List ShotJob) (hfull : maxDepth < q.getWaitingCount + jobs.length) :
      WebhookStep maxDepth q (.checkBatchCapacity jobs) .capacity q (.refused jobs)
  | enough (jobs : List ShotJob) (hroom : q.getWaitingCount + jobs.length ≤ maxDepth) :
      WebhookStep maxDepth q (.checkBatchCapacity jobs) .capacity q (.enqueuing (jobs.map .check))
  | enqueue {calls : List EnqueueState} {k : ℕ} {call call' : EnqueueState} {q' : Queue}
      (hcall : calls[k]? = some call) (hstep : EnqueueStep maxDepth q call q' call') :
      WebhookStep maxDepth q (.enqueuing calls) (.enqueue k) q' (.enqueuing (calls.set k call'))

/-- The steps of a worker. -/
inductive WorkerStep (deps : Deps) (i : ℕ) (w : QueueWorld) :
    WorkerState → WorkerLabel → QueueWorld → WorkerState → Prop
  | take {jobId : String} {job : QueuedJob} (hjob : w.queue.find jobId = some job)
      (hwaiting : job.state = .waiting) :
      WorkerStep deps i w .idle (.take jobId) { w with queue := Queue.take w.queue i jobId }
        (.running jobId (process job.data))
  | process (jobId : String) {s s' : ProcessState} {k : ℕ} {world : World}
      (hstep : s.step deps w.toWorld k = some (world, s')) :
      WorkerStep deps i w (.running jobId s) (.process k) { w with toWorld := world }
        (.running jobId s')
  | fail (jobId : String) {s s' : ProcessState} (hfail : s.fail = some s') :
      WorkerStep deps i w (.running jobId s) .fail w (.running jobId s')
  | complete (jobId : String) (job : ShotJob) :
      WorkerStep deps i w (.running jobId (.returned job)) .finish
        { w with queue := Queue.moveToCompleted w.queue i jobId w.db.now } .finished
  | giveUp (jobId : String) (job : ShotJob) :
      WorkerStep deps i w (.running jobId (.failed job)) .finish
        { w with queue := Queue.moveToFailed w.queue i jobId w.db.now } .finished

inductive Step (deps : Deps) (maxDepth i : ℕ) (w : QueueWorld) :
    QueueCall → QueueLabel → QueueWorld → QueueCall → Prop
  | webhook {s s' : WebhookState} {label : WebhookLabel} {q : Queue}
      (hstep : WebhookStep maxDepth w.queue s label q s') :
      Step deps maxDepth i w (.webhook s) (.webhook label) { w with queue := q } (.webhook s')
  | worker {s s' : WorkerState} {label : WorkerLabel} {w' : QueueWorld}
      (hstep : WorkerStep deps i w s label w' s') :
      Step deps maxDepth i w (.worker s) (.worker label) w' (.worker s')
  | service {call call' : Call} {label : Label} {world : World}
      (hstep : Service.step deps w.toWorld call label = some (world, call')) :
      Step deps maxDepth i w (.service call) (.service label) { w with toWorld := world }
        (.service call')

/-- What happens besides. -/
inductive EventStep (w : QueueWorld) : QueueEvent → QueueWorld → Prop
  | service {x : Event} {world : World} (hevent : Service.event w.toWorld x = some world) :
      EventStep w (.service x) { w with toWorld := world }
  | promote {jobId : String} {job : QueuedJob} (hjob : w.queue.find jobId = some job)
      (hdelayed : job.state = .delayed) :
      EventStep w (.promote jobId) { w with queue := Queue.toWaiting w.queue jobId }
  | stalled {jobId : String} {job : QueuedJob} {worker : ℕ} (hjob : w.queue.find jobId = some job)
      (hactive : job.state = .active worker) :
      EventStep w (.stalled jobId) { w with queue := Queue.toWaiting w.queue jobId }
  | remove {jobId : String} {job : QueuedJob} (hjob : w.queue.find jobId = some job)
      (hexpired : job.Expired w.db.now) :
      EventStep w (.remove jobId) { w with queue := w.queue.remove jobId }

section

variable {deps : Deps} {maxDepth i : ℕ} {w w' : QueueWorld} {q q' : Queue}

theorem enqueueStep_cases {s s' : EnqueueState} (h : s.step maxDepth q = some (q', s')) :
    EnqueueStep maxDepth q s q' s' := by
  cases s with
  | check job =>
      obtain ⟨rfl, rfl⟩ := Prod.mk.inj (Option.some.inj h)
      split
      · rename_i hfull
        exact .full job hfull
      · rename_i hroom
        exact .room job (Nat.not_le.mp hroom)
  | add job =>
      obtain ⟨rfl, rfl⟩ := Prod.mk.inj (Option.some.inj h)
      by_cases hknown : q.Known job.jobId
      · rw [Keyed.add_of_known hknown, decide_eq_false (not_not.mpr hknown)]
        exact .known job hknown
      · rw [decide_eq_true hknown]
        exact .added job hknown
  | returned job isNew => exact absurd h (by simp [EnqueueState.step])
  | unavailable job => exact absurd h (by simp [EnqueueState.step])

theorem webhookStep_cases {s s' : WebhookState} {label : WebhookLabel}
    (h : s.step maxDepth q label = some (q', s')) : WebhookStep maxDepth q s label q' s' := by
  rw [WebhookState.step.eq_def] at h
  split at h
  · obtain ⟨rfl, rfl⟩ := Prod.mk.inj (Option.some.inj h)
    split
    · rename_i hfull
      exact .refuse _ hfull
    · rename_i hroom
      exact .enough _ (Nat.not_lt.mp hroom)
  · obtain ⟨call, hcall, heq⟩ := Option.bind_eq_some_iff.mp h
    obtain ⟨⟨q₁, call'⟩, hstep, heq⟩ := Option.map_eq_some_iff.mp heq
    obtain ⟨rfl, rfl⟩ := Prod.mk.inj heq
    exact .enqueue hcall (enqueueStep_cases hstep)
  · exact absurd h (by simp)

theorem workerStep_cases {s s' : WorkerState} {label : WorkerLabel}
    (h : s.step deps i w label = some (w', s')) : WorkerStep deps i w s label w' s' := by
  rw [WorkerState.step.eq_def] at h
  split at h
  · obtain ⟨job, hjob, heq⟩ := Option.bind_eq_some_iff.mp h
    split at heq
    · rename_i hwaiting
      obtain ⟨rfl, rfl⟩ := Prod.mk.inj (Option.some.inj heq)
      exact .take hjob hwaiting
    · exact absurd heq (by simp)
  · obtain ⟨⟨world, s₁⟩, hstep, heq⟩ := Option.map_eq_some_iff.mp h
    obtain ⟨rfl, rfl⟩ := Prod.mk.inj heq
    exact .process _ hstep
  · obtain ⟨s₁, hfail, heq⟩ := Option.map_eq_some_iff.mp h
    obtain ⟨rfl, rfl⟩ := Prod.mk.inj heq
    exact .fail _ hfail
  · obtain ⟨rfl, rfl⟩ := Prod.mk.inj (Option.some.inj h)
    exact .complete _ _
  · obtain ⟨rfl, rfl⟩ := Prod.mk.inj (Option.some.inj h)
    exact .giveUp _ _
  · exact absurd h (by simp)

theorem step_cases {call call' : QueueCall} {label : QueueLabel}
    (h : step deps maxDepth i w call label = some (w', call')) :
    Step deps maxDepth i w call label w' call' := by
  rw [step.eq_def] at h
  split at h
  · obtain ⟨⟨queue, s'⟩, hstep, heq⟩ := Option.map_eq_some_iff.mp h
    obtain ⟨rfl, rfl⟩ := Prod.mk.inj heq
    exact .webhook (webhookStep_cases hstep)
  · obtain ⟨⟨w₁, s'⟩, hstep, heq⟩ := Option.map_eq_some_iff.mp h
    obtain ⟨rfl, rfl⟩ := Prod.mk.inj heq
    exact .worker (workerStep_cases hstep)
  · obtain ⟨⟨world, call'⟩, hstep, heq⟩ := Option.map_eq_some_iff.mp h
    obtain ⟨rfl, rfl⟩ := Prod.mk.inj heq
    exact .service hstep
  · exact absurd h (by simp)

theorem event_cases {x : QueueEvent} (h : event w x = some w') : EventStep w x w' := by
  cases x with
  | service x =>
      obtain ⟨world, hevent, rfl⟩ := Option.map_eq_some_iff.mp h
      exact .service hevent
  | promote jobId =>
      obtain ⟨job, hjob, heq⟩ := Option.bind_eq_some_iff.mp h
      split at heq
      · rename_i hdelayed
        obtain rfl := Option.some.inj heq
        exact .promote hjob hdelayed
      · exact absurd heq (by simp)
  | stalled jobId =>
      obtain ⟨job, hjob, heq⟩ := Option.bind_eq_some_iff.mp h
      split at heq
      · rename_i worker hactive
        obtain rfl := Option.some.inj heq
        exact .stalled hjob hactive
      · exact absurd heq (by simp)
  | remove jobId =>
      obtain ⟨job, hjob, heq⟩ := Option.bind_eq_some_iff.mp h
      split at heq
      · rename_i hexpired
        obtain rfl := Option.some.inj heq
        exact .remove hjob hexpired
      · exact absurd heq (by simp)

end

/-! ### A request stays for its jobs -/

section

variable {maxDepth : ℕ} {q q' : Queue}

theorem EnqueueStep.job_eq {call call' : EnqueueState} (h : EnqueueStep maxDepth q call q' call') :
    call'.job = call.job := by
  cases h <;> rfl

theorem WebhookStep.jobs_eq {s s' : WebhookState} {label : WebhookLabel}
    (h : WebhookStep maxDepth q s label q' s') : s'.jobs = s.jobs := by
  cases h with
  | refuse jobs hfull => rfl
  | enough jobs hroom =>
      show (jobs.map EnqueueState.check).map (·.job) = jobs
      rw [List.map_map]
      exact List.map_id jobs
  | @enqueue calls k call call' _ hcall hstep =>
      obtain ⟨hk, rfl⟩ := List.getElem?_eq_some_iff.mp hcall
      show (calls.set k call').map (·.job) = calls.map (·.job)
      rw [List.map_set, hstep.job_eq]
      have hlength : k < (calls.map (·.job)).length := by rwa [List.length_map]
      have hself := List.set_getElem_self hlength
      rwa [List.getElem_map] at hself

end

/-! ### Jobs that are known stay known -/

section

variable {q : Queue} {worker : ℕ} {jobId k : String} {now : ℤ}

theorem known_take : (Queue.take q worker jobId).Known k ↔ q.Known k := by
  rw [Queue.take, Queue.setState]
  apply Keyed.known_modify

theorem known_moveToCompleted : (Queue.moveToCompleted q worker jobId now).Known k ↔ q.Known k := by
  rw [Queue.moveToCompleted, Queue.setState]
  apply Keyed.known_modify

theorem known_moveToFailed : (Queue.moveToFailed q worker jobId now).Known k ↔ q.Known k := by
  rw [Queue.moveToFailed, Queue.setState]
  apply Keyed.known_modify

theorem known_toWaiting : (Queue.toWaiting q jobId).Known k ↔ q.Known k := by
  rw [Queue.toWaiting, Queue.setState]
  apply Keyed.known_modify

end

section

variable {deps : Deps} {maxDepth i : ℕ} {w w' : QueueWorld} {q q' : Queue} {jobId : String}

theorem EnqueueStep.keeps {s s' : EnqueueState} (h : EnqueueStep maxDepth q s q' s')
    (hknown : q.Known jobId) : q'.Known jobId := by
  cases h with
  | added job hnew => exact Keyed.known_add.mpr (.inl hknown)
  | _ => exact hknown

theorem WebhookStep.keeps {s s' : WebhookState} {label : WebhookLabel}
    (h : WebhookStep maxDepth q s label q' s') (hknown : q.Known jobId) : q'.Known jobId := by
  cases h with
  | enqueue hcall hstep => exact hstep.keeps hknown
  | _ => exact hknown

theorem Step.keeps {call call' : QueueCall} {label : QueueLabel}
    (h : Step deps maxDepth i w call label w' call') (hknown : w.queue.Known jobId) :
    w'.queue.Known jobId := by
  cases h with
  | webhook hstep => exact hstep.keeps hknown
  | worker hstep =>
      cases hstep with
      | take hjob hwaiting => exact known_take.mpr hknown
      | complete jobId job => exact known_moveToCompleted.mpr hknown
      | giveUp jobId job => exact known_moveToFailed.mpr hknown
      | _ => exact hknown
  | service hstep => exact hknown

theorem EventStep.keeps {x : QueueEvent} (h : EventStep w x w') (hkept : x ≠ .remove jobId)
    (hknown : w.queue.Known jobId) : w'.queue.Known jobId := by
  cases h with
  | service hevent => exact hknown
  | promote hjob hdelayed => exact known_toWaiting.mpr hknown
  | stalled hjob hactive => exact known_toWaiting.mpr hknown
  | remove hjob hexpired =>
      have hne {id : String} (h : QueueEvent.remove id ≠ .remove jobId) : jobId ≠ id :=
        fun heq => h (congrArg _ heq.symm)
      exact (Keyed.known_remove (hne hkept)).mpr hknown

end

end JobQueue

end PureplayIngest
