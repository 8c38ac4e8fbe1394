import PureplayIngest.Ingestion.ShotIngestionQueue
import PureplayIngest.Webhooks.IdempotencyKeys

/-!
Batches, all or nothing.

The capacity of the queue is checked for the whole batch, and then again by
the enqueue call of each shot. Between the two, jobs of other requests may come
in. The request is answered with an error as soon as one call finds the queue
full, whatever the others have added by then or add later.
-/

namespace PureplayIngest

open Shared.Domain Shared.Kysely Identity Ingestion Lib Webhooks

namespace Ingestion

def EnqueueState.isUnavailable : EnqueueState → Bool
  | .unavailable _ => true
  | _ => false

def EnqueueState.hasReturned : EnqueueState → Bool
  | .returned _ _ => true
  | _ => false

/-- The call has added a job that was not known before. -/
def EnqueueState.hasAdded : EnqueueState → Bool
  | .returned _ isNew => isNew
  | _ => false

def EnqueueState.stepsLeft : EnqueueState → ℕ
  | .check _ => 2
  | .add _ => 1
  | _ => 0

/-- 202, and 503. -/
inductive Response
  | accepted
  | unavailable
  deriving DecidableEq

namespace WebhookState

/-- How a request is answered, once it is. -/
def response : WebhookState → Option Response
  | .checkBatchCapacity _ => none
  | .refused _ => some .unavailable
  | .enqueuing calls =>
      if calls.any (·.isUnavailable) then some .unavailable
      else if calls.all (·.hasReturned) then some .accepted
      else none

def Added : WebhookState → Prop
  | .enqueuing calls => ∃ call ∈ calls, call.hasAdded = true
  | _ => False

instance (s : WebhookState) : Decidable s.Added :=
  match s with
  | .checkBatchCapacity _ => inferInstanceAs (Decidable False)
  | .refused _ => inferInstanceAs (Decidable False)
  | .enqueuing calls => inferInstanceAs (Decidable (∃ call ∈ calls, call.hasAdded = true))

def stepsLeft : WebhookState → ℕ
  | .checkBatchCapacity jobs => 2 * jobs.length + 1
  | .refused _ => 0
  | .enqueuing calls => (calls.map (·.stepsLeft)).sum

end WebhookState

end Ingestion

namespace JobQueue

def system (deps : Deps) (maxDepth : ℕ) : System Config Action :=
  (program deps maxDepth).system fun _ => True

def Action.isStepOf (i : ℕ) : Action → Bool
  | .step j _ => j = i
  | _ => false

/-- The calls that may still add a job. -/
def pending (calls : List EnqueueState) : ℕ := calls.countP fun call => 0 < call.stepsLeft

/-- Another job than one of request `i` comes to wait: it is added, its delay
ends, or its worker is found to be gone. -/
def AddsWaiting (i : ℕ) (c : Config) : Action → Prop
  | .step j (.webhook (.enqueue k)) => j ≠ i ∧ ∃ calls job,
      c.threads j = some (.webhook (.enqueuing calls)) ∧ calls[k]? = some (.add job) ∧
        ¬ c.shared.queue.Known job.jobId
  | .env (.promote _) => True
  | .env (.stalled _) => True
  | _ => False

/-- The condition under which request `i` is all or nothing, as a guard on the
actions. While some of its calls are still to add their jobs, another job comes to
wait only where the queue has room for it beside theirs; and no finished job with
an id of the batch is removed. -/
structure BatchUndisturbed (maxDepth i : ℕ) (c : Config) (a : Action) : Prop where
  room : AddsWaiting i c a → ∀ calls, c.threads i = some (.webhook (.enqueuing calls)) →
    0 < pending calls → c.shared.queue.getWaitingCount + pending calls < maxDepth
  kept : ∀ jobId, a = .env (.remove jobId) →
    ∀ s, c.threads i = some (.webhook s) → ∀ job ∈ s.jobs, job.jobId ≠ jobId

/-- What holds of the calls of a request that was let in. -/
structure RoomInv (maxDepth : ℕ) (q : Queue) (calls : List EnqueueState) : Prop where
  available : ∀ call ∈ calls, call.isUnavailable = false
  room : q.getWaitingCount + pending calls ≤ maxDepth

/-! ### The count of waiting jobs -/

section

variable {deps : Deps} {maxDepth i k : ℕ} {w w' : QueueWorld} {q q' : Queue}
  {calls : List EnqueueState} {call call' : EnqueueState}

theorem getWaitingCount_setState_le {jobId : String} {f : QueuedJob → QueuedJob}
    (hf : ∀ job, (f job).data = job.data)
    (h : ∀ job, (f job).state = .waiting → job.state = .waiting) :
    (q.setState jobId f hf).getWaitingCount ≤ q.getWaitingCount :=
  Keyed.countP_modify_le _ fun job hjob =>
    decide_eq_true (h job (of_decide_eq_true hjob))

/-- A worker takes jobs from those that wait and puts none there. -/
theorem WorkerStep.getWaitingCount_le {s s' : WorkerState} {label : WorkerLabel}
    (h : WorkerStep deps i w s label w' s') :
    w'.queue.getWaitingCount ≤ w.queue.getWaitingCount := by
  cases h with
  | take hjob hwaiting =>
      simp only [Queue.take]
      exact getWaitingCount_setState_le _ fun job h => absurd h (by simp)
  | complete jobId job =>
      simp only [Queue.moveToCompleted]
      refine getWaitingCount_setState_le _ fun job h => ?_
      split at h
      · exact absurd h (by simp)
      · exact h
  | giveUp jobId job =>
      simp only [Queue.moveToFailed]
      refine getWaitingCount_setState_le _ fun job h => ?_
      split at h
      · simp only at h
        split at h <;> exact absurd h (by simp)
      · exact h
  | _ => exact le_rfl

theorem getWaitingCount_setState_le_succ {q : Queue} {jobId : String} {f : QueuedJob → QueuedJob}
    (hf : ∀ job, (f job).data = job.data) :
    (q.setState jobId f hf).getWaitingCount ≤ q.getWaitingCount + 1 :=
  Keyed.countP_modify_le_succ _

theorem getWaitingCount_toWaiting_le {q : Queue} {jobId : String} :
    (q.toWaiting jobId).getWaitingCount ≤ q.getWaitingCount + 1 := by
  rw [Queue.toWaiting]
  exact getWaitingCount_setState_le_succ _

end

/-! ### The calls of a request -/

section

variable {maxDepth k : ℕ} {q q' : Queue} {calls : List EnqueueState} {call call' : EnqueueState}

theorem EnqueueStep.stepsLeft_lt (h : EnqueueStep maxDepth q call q' call') :
    call'.stepsLeft < call.stepsLeft := by
  cases h <;> simp [EnqueueState.stepsLeft]

theorem stepsLeft_set (hcall : calls[k]? = some call) (hlt : call'.stepsLeft < call.stepsLeft) :
    (WebhookState.enqueuing (calls.set k call')).stepsLeft <
      (WebhookState.enqueuing calls).stepsLeft := by
  induction calls generalizing k with
  | nil => exact absurd hcall (by simp)
  | cons first rest ih =>
      cases k with
      | zero =>
          obtain rfl := Option.some.inj hcall
          show call'.stepsLeft + (rest.map (·.stepsLeft)).sum <
            first.stepsLeft + (rest.map (·.stepsLeft)).sum
          omega
      | succ k =>
          have hrest := ih (k := k) hcall
          simp only [WebhookState.stepsLeft] at hrest
          show first.stepsLeft + ((rest.set k call').map (·.stepsLeft)).sum <
            first.stepsLeft + (rest.map (·.stepsLeft)).sum
          omega

theorem pending_pos (hcall : calls[k]? = some call) (hleft : 0 < call.stepsLeft) :
    0 < pending calls :=
  List.countP_pos_iff.mpr ⟨call, List.mem_of_getElem? hcall, decide_eq_true hleft⟩

variable (call') in
theorem pending_set (hcall : calls[k]? = some call) (hleft : 0 < call.stepsLeft) :
    pending (calls.set k call') + 1 =
      pending calls + if 0 < call'.stepsLeft then 1 else 0 := by
  have hpos := pending_pos hcall hleft
  obtain ⟨hk, rfl⟩ := List.getElem?_eq_some_iff.mp hcall
  rw [pending, List.countP_set hk, decide_eq_true hleft, if_pos rfl]
  simp only [decide_eq_true_eq]
  unfold pending at hpos ⊢
  omega

/-- The step of a call: the room it was let in for is still there. -/
theorem RoomInv.set (hinv : RoomInv maxDepth q calls) (h : EnqueueStep maxDepth q call q' call')
    (hcall : calls[k]? = some call) : RoomInv maxDepth q' (calls.set k call') := by
  obtain ⟨havailable, hroom⟩ := hinv
  have hleft : 0 < call.stepsLeft := Nat.zero_lt_of_lt h.stepsLeft_lt
  have hpos := pending_pos hcall hleft
  have hpending := pending_set call' hcall hleft
  have hset (hcall' : call'.isUnavailable = false) :
      ∀ x ∈ calls.set k call', x.isUnavailable = false := by
    intro x hx
    obtain hx | rfl := List.mem_or_eq_of_mem_set hx
    · exact havailable x hx
    · exact hcall'
  cases h with
  | full job hfull => omega
  | room job hfree =>
      refine ⟨hset rfl, ?_⟩
      simp [EnqueueState.stepsLeft] at hpending
      omega
  | known job hknown =>
      refine ⟨hset rfl, ?_⟩
      simp [EnqueueState.stepsLeft] at hpending
      omega
  | added job hnew =>
      refine ⟨hset rfl, ?_⟩
      simp [EnqueueState.stepsLeft] at hpending
      have hcount : Queue.getWaitingCount (q.add ⟨job, 0, .waiting⟩) = q.getWaitingCount + 1 :=
        Keyed.countP_add (show ¬ q.Known (QueuedJob.id ⟨job, 0, .waiting⟩) from hnew)
      rw [hcount]
      omega

/-- What holds of the calls of a request under the condition. -/
structure CallsInv (maxDepth : ℕ) (q : Queue) (calls : List EnqueueState) : Prop where
  known : ∀ job isNew, .returned job isNew ∈ calls → q.Known job.jobId
  available : ∀ call ∈ calls, call.isUnavailable = false
  room : 0 < pending calls → q.getWaitingCount + pending calls ≤ maxDepth

/-- A step of a call: there is room for the job that it is to add. -/
theorem CallsInv.set (hinv : CallsInv maxDepth q calls)
    (h : EnqueueStep maxDepth q call q' call') (hcall : calls[k]? = some call) :
    CallsInv maxDepth q' (calls.set k call') := by
  have hopen := pending_pos hcall (Nat.zero_lt_of_lt h.stepsLeft_lt)
  have hroom := RoomInv.set ⟨hinv.available, hinv.room hopen⟩ h hcall
  refine ⟨fun job isNew hmem => ?_, hroom.available, fun _ => hroom.room⟩
  obtain hmem | rfl := List.mem_or_eq_of_mem_set hmem
  · have hknown := hinv.known job isNew hmem
    cases h with
    | added job' hnew => exact Keyed.known_add.mpr (.inl hknown)
    | _ => exact hknown
  · cases h with
    | known _ hknown => exact hknown
    | added _ hnew => exact Keyed.known_add.mpr (.inr rfl)

theorem CallsInv.mono (hinv : CallsInv maxDepth q calls)
    (hknown : ∀ job ∈ (WebhookState.enqueuing calls).jobs, q.Known job.jobId → q'.Known job.jobId)
    (hroom : 0 < pending calls → q.getWaitingCount + pending calls ≤ maxDepth →
      q'.getWaitingCount + pending calls ≤ maxDepth) : CallsInv maxDepth q' calls where
  known job isNew hmem :=
    hknown job (List.mem_map_of_mem (f := (·.job)) hmem) (hinv.known job isNew hmem)
  available := hinv.available
  room hopen := hroom hopen (hinv.room hopen)

end

/-! ### Runs of a request -/

section

variable {deps : Deps} {maxDepth i : ℕ} {c c' : Config} {a : Action} {s s' : WebhookState}
  {q q' : Queue} {label : WebhookLabel}

/-- The check of a batch lets it in only if there is room for a job for each shot. -/
theorem roomInv_of_check {q : Queue} {jobs : List ShotJob}
    (hroom : q.getWaitingCount + jobs.length ≤ maxDepth) :
    RoomInv maxDepth q (jobs.map .check) := by
  constructor
  · intro call hcall
    obtain ⟨job, _, rfl⟩ := List.mem_map.mp hcall
    rfl
  · rw [pending, List.countP_map]
    simpa [Function.comp_def, EnqueueState.stepsLeft] using hroom

def WebhookInv (maxDepth : ℕ) (q : Queue) : WebhookState → Prop
  | .enqueuing calls => CallsInv maxDepth q calls
  | _ => True

/-- What an action that is not the request's own does to the queue. -/
theorem WebhookInv.mono (hinv : WebhookInv maxDepth q s)
    (hknown : ∀ job ∈ s.jobs, q.Known job.jobId → q'.Known job.jobId)
    (hroom : ∀ calls, s = .enqueuing calls → 0 < pending calls →
      q.getWaitingCount + pending calls ≤ maxDepth →
      q'.getWaitingCount + pending calls ≤ maxDepth) : WebhookInv maxDepth q' s := by
  cases s with
  | enqueuing calls => exact CallsInv.mono hinv hknown (hroom calls rfl)
  | _ => trivial

/-- Each of its own steps brings a request nearer to its end. -/
theorem WebhookStep.stepsLeft_lt (h : WebhookStep maxDepth q s label q' s') :
    s'.stepsLeft < s.stepsLeft := by
  cases h with
  | refuse jobs hfull => exact Nat.succ_pos _
  | enough jobs hroom =>
      show ((jobs.map EnqueueState.check).map (·.stepsLeft)).sum < 2 * jobs.length + 1
      have hconst : (jobs.map EnqueueState.check).map (·.stepsLeft) = jobs.map fun _ => 2 := by
        rw [List.map_map]
        rfl
      rw [hconst, List.map_const', List.sum_replicate_nat, Nat.mul_comm]
      exact Nat.lt_succ_self _
  | enqueue hcall hstep => exact stepsLeft_set hcall hstep.stepsLeft_lt

theorem WebhookStep.webhookInv (h : WebhookStep maxDepth q s label q' s')
    (hinv : WebhookInv maxDepth q s) : WebhookInv maxDepth q' s' := by
  cases h with
  | refuse jobs hfull => trivial
  | enough jobs hroom =>
      have hinv' := roomInv_of_check hroom
      refine ⟨fun job isNew hmem => ?_, hinv'.available, fun _ => hinv'.room⟩
      obtain ⟨_, _, heq⟩ := List.mem_map.mp hmem
      exact absurd heq (by simp)
  | enqueue hcall hstep => exact CallsInv.set hinv hstep hcall

/-- A step of another thread has one job more wait at most, and then one that it adds. -/
theorem Step.waits_or_adds {j : ℕ} {e : QueueLabel} {p p' : QueueCall} {w' : QueueWorld}
    (h : Step deps maxDepth j c.shared p e w' p') (hj : c.threads j = some p) (hij : j ≠ i) :
    w'.queue.getWaitingCount ≤ c.shared.queue.getWaitingCount ∨
      AddsWaiting i c (.step j e) ∧
        w'.queue.getWaitingCount ≤ c.shared.queue.getWaitingCount + 1 := by
  cases h with
  | webhook hwebhook =>
      cases hwebhook with
      | @enqueue calls k call call' q' hcall hstep =>
          cases hstep with
          | added job hnew =>
              refine .inr ⟨⟨hij, calls, job, hj, hcall, hnew⟩, ?_⟩
              exact (Keyed.countP_add
                (show ¬ c.shared.queue.Known (QueuedJob.id ⟨job, 0, .waiting⟩) from hnew)).le
          | _ => exact .inl le_rfl
      | _ => exact .inl le_rfl
  | worker hworker => exact .inl hworker.getWaitingCount_le
  | service hservice => exact .inl le_rfl

theorem EventStep.waits_or_adds {x : QueueEvent} {w' : QueueWorld} (h : EventStep c.shared x w') :
    w'.queue.getWaitingCount ≤ c.shared.queue.getWaitingCount ∨
      AddsWaiting i c (.env x) ∧
        w'.queue.getWaitingCount ≤ c.shared.queue.getWaitingCount + 1 := by
  cases h with
  | service hevent => exact .inl le_rfl
  | promote hjob hdelayed => exact .inr ⟨trivial, getWaitingCount_toWaiting_le⟩
  | stalled hjob hactive => exact .inr ⟨trivial, getWaitingCount_toWaiting_le⟩
  | remove hjob hexpired => exact .inl Keyed.countP_remove_le

/-- Under the condition the room for the calls of the batch is left. -/
theorem BatchUndisturbed.room_left (hguard : BatchUndisturbed maxDepth i c a)
    (hi : c.threads i = some (.webhook s))
    (h : q'.getWaitingCount ≤ c.shared.queue.getWaitingCount ∨
      AddsWaiting i c a ∧ q'.getWaitingCount ≤ c.shared.queue.getWaitingCount + 1) :
    ∀ calls, s = .enqueuing calls → 0 < pending calls →
      c.shared.queue.getWaitingCount + pending calls ≤ maxDepth →
      q'.getWaitingCount + pending calls ≤ maxDepth := by
  rintro calls rfl hopen hroom
  obtain hle | ⟨hadds, hle⟩ := h
  · omega
  · have hfree := hguard.room hadds calls hi hopen
    omega

/-- An action and request `i`: a step of its own, or none. -/
theorem exec_own_or_other (hi : c.threads i = some (.webhook s))
    (hexec : (program deps maxDepth).exec c a = some c') :
    ∃ s', c'.threads i = some (.webhook s') ∧
      ((∃ label, a = .step i (.webhook label) ∧
          WebhookStep maxDepth c.shared.queue s label c'.shared.queue s') ∨
        a.isStepOf i = false ∧ s' = s) := by
  obtain ⟨j, p, rfl, hj, rfl⟩ | ⟨j, e, p, w', r, rfl, hj, hstep, rfl⟩ | ⟨x, w', rfl, hevent, rfl⟩ :=
    Program.exec_cases hexec
  · have hij : i ≠ j := by
      rintro rfl
      exact absurd (hj.symm.trans hi) (by simp)
    exact ⟨s, (Function.update_of_ne hij ..).trans hi, .inr ⟨rfl, rfl⟩⟩
  · by_cases hij : i = j
    · subst hij
      obtain rfl := Option.some.inj (hi.symm.trans hj)
      cases step_cases hstep with
      | webhook hwebhook => exact ⟨_, Function.update_self .., .inl ⟨_, rfl, hwebhook⟩⟩
    · exact ⟨s, (Function.update_of_ne hij ..).trans hi,
        .inr ⟨decide_eq_false (Ne.symm hij), rfl⟩⟩
  · exact ⟨s, hi, .inr ⟨rfl, rfl⟩⟩

/-- What an action that is no step of request `i` does to the queue. -/
theorem exec_other (hother : a.isStepOf i = false)
    (hexec : (program deps maxDepth).exec c a = some c') :
    (c'.shared.queue.getWaitingCount ≤ c.shared.queue.getWaitingCount ∨ AddsWaiting i c a ∧
        c'.shared.queue.getWaitingCount ≤ c.shared.queue.getWaitingCount + 1) ∧
      ∀ jobId, a ≠ .env (.remove jobId) →
        c.shared.queue.Known jobId → c'.shared.queue.Known jobId := by
  obtain ⟨j, p, rfl, hj, rfl⟩ | ⟨j, e, p, w', r, rfl, hj, hstep, rfl⟩ | ⟨x, w', rfl, hevent, rfl⟩ :=
    Program.exec_cases hexec
  · exact ⟨.inl le_rfl, fun _ _ hknown => hknown⟩
  · have hcases := step_cases hstep
    exact ⟨hcases.waits_or_adds hj (of_decide_eq_false hother), fun _ _ hknown =>
      hcases.keeps hknown⟩
  · have hcases := event_cases hevent
    exact ⟨hcases.waits_or_adds, fun _ hkept hknown =>
      hcases.keeps (fun heq => hkept (congrArg _ heq)) hknown⟩

/-- A request comes to its end in a bounded number of its own steps, with the
jobs it has begun with. -/
theorem run_stepsLeft {G : Config → Action → Prop} {as : List Action}
    (hi : c.threads i = some (.webhook s)) (hrun : (system deps maxDepth).Run G c as c') :
    ∃ s', c'.threads i = some (.webhook s') ∧ s'.jobs = s.jobs ∧
      as.countP (·.isStepOf i) + s'.stepsLeft ≤ s.stepsLeft := by
  induction hrun generalizing s with
  | nil c => exact ⟨s, hi, rfl, (Nat.zero_add _).le⟩
  | @cons c d e a as hguard hexec tail ih =>
      obtain ⟨s₁, hi₁, hown | ⟨hother, rfl⟩⟩ := exec_own_or_other hi hexec
      · obtain ⟨label, rfl, hstep⟩ := hown
        obtain ⟨s', hi', hjobs, hleft⟩ := ih hi₁
        have hlt := hstep.stepsLeft_lt
        refine ⟨s', hi', hjobs.trans hstep.jobs_eq, ?_⟩
        rw [List.countP_cons, Action.isStepOf, decide_eq_true rfl, if_pos rfl]
        omega
      · obtain ⟨s', hi', hjobs, hleft⟩ := ih hi₁
        refine ⟨s', hi', hjobs, ?_⟩
        rw [List.countP_cons, hother]
        exact hleft

theorem exec_request (hi : c.threads i = some (.webhook s))
    (hinv : WebhookInv maxDepth c.shared.queue s) (hguard : BatchUndisturbed maxDepth i c a)
    (hexec : (program deps maxDepth).exec c a = some c') :
    ∃ s', c'.threads i = some (.webhook s') ∧ WebhookInv maxDepth c'.shared.queue s' := by
  obtain ⟨s', hi', ⟨label, rfl, hstep⟩ | ⟨hother, rfl⟩⟩ := exec_own_or_other hi hexec
  · exact ⟨s', hi', hstep.webhookInv hinv⟩
  · obtain ⟨hcount, hkeeps⟩ := exec_other hother hexec
    refine ⟨s', hi', hinv.mono (fun job hjob => hkeeps _ ?_) (hguard.room_left hi hcount)⟩
    rintro rfl
    exact hguard.kept _ rfl s' hi job hjob rfl

theorem run_request {as : List Action} (hi : c.threads i = some (.webhook s))
    (hinv : WebhookInv maxDepth c.shared.queue s)
    (hrun : (system deps maxDepth).Run (BatchUndisturbed maxDepth i) c as c') :
    ∃ s', c'.threads i = some (.webhook s') ∧ WebhookInv maxDepth c'.shared.queue s' := by
  induction hrun generalizing s with
  | nil c => exact ⟨s, hi, hinv⟩
  | @cons c d e a as hguard hexec tail ih =>
      obtain ⟨s₁, hi₁, hinv₁⟩ := exec_request hi hinv hguard hexec
      exact ih hi₁ hinv₁

/-- A request that is not answered yet can go on. -/
theorem can_step (hi : c.threads i = some (.webhook s)) (hnone : s.response = none) :
    ∃ label, ((program deps maxDepth).exec c (.step i label)).isSome = true := by
  have henabled (label : WebhookLabel) {r : Queue × WebhookState}
      (h : s.step maxDepth c.shared.queue label = some r) :
      ((program deps maxDepth).exec c (.step i (.webhook label))).isSome = true := by
    simp [Program.exec, hi, program, step, h]
  cases s with
  | checkBatchCapacity jobs => exact ⟨_, henabled .capacity rfl⟩
  | refused jobs => exact absurd hnone (by simp [WebhookState.response])
  | enqueuing calls =>
      rw [WebhookState.response] at hnone
      split at hnone
      · exact absurd hnone (by simp)
      · rename_i hany
        split at hnone
        · exact absurd hnone (by simp)
        · rename_i hall
          rw [List.all_eq_true] at hall
          push Not at hall
          obtain ⟨call, hmem, hcall⟩ := hall
          obtain ⟨k, hk⟩ := List.mem_iff_getElem?.mp hmem
          refine ⟨.webhook (.enqueue k), ?_⟩
          cases call with
          | check job => exact henabled _ (by rw [WebhookState.step, hk, Option.bind_some]; rfl)
          | add job => exact henabled _ (by rw [WebhookState.step, hk, Option.bind_some]; rfl)
          | returned job isNew => exact absurd rfl hcall
          | unavailable job => exact absurd (List.any_eq_true.mpr ⟨_, hmem, rfl⟩) hany

theorem WebhookInv.answer (hinv : WebhookInv maxDepth q s) :
    (s.response = some .accepted → ∀ job ∈ s.jobs, q.Known job.jobId) ∧
      (s.response = some .unavailable → ¬ s.Added) := by
  cases s with
  | checkBatchCapacity jobs => simp [WebhookState.response]
  | refused jobs => exact ⟨fun h => absurd h (by simp [WebhookState.response]), fun _ h => h⟩
  | enqueuing calls =>
      rw [WebhookState.response]
      split
      · rename_i hany
        obtain ⟨call, hmem, hcall⟩ := List.any_eq_true.mp hany
        exact absurd ((hinv.available call hmem).symm.trans hcall) (by simp)
      · split
        · rename_i hall
          refine ⟨fun _ job hjob => ?_, fun h => absurd h (by simp)⟩
          obtain ⟨call, hmem, rfl⟩ := List.mem_map.mp hjob
          have hcall := List.all_eq_true.mp hall call hmem
          cases call with
          | returned job isNew => exact hinv.known job isNew hmem
          | _ => exact absurd hcall (by simp [EnqueueState.hasReturned])
        · exact ⟨fun h => absurd h (by simp), fun h => absurd h (by simp)⟩

/-- A batch is enqueued as a whole or not at all. Whatever the queue holds and
whatever else goes on, as long as another job comes to wait only where there is
room for it beside those of the batch: the request is answered after at most two
steps for each shot and one more, it can go on until it is, 202 means that a job is
known for every shot, and 503 that none has been added. -/
theorem batches_all_or_nothing {as : List Action} {jobs : List ShotJob}
    (hi : c.threads i = some (.webhook (.checkBatchCapacity jobs)))
    (hrun : (system deps maxDepth).Run (BatchUndisturbed maxDepth i) c as c') :
    as.countP (·.isStepOf i) ≤ 2 * jobs.length + 1 ∧
      ∃ s, c'.threads i = some (.webhook s) ∧
        (s.response = none →
          ∃ label, ((program deps maxDepth).exec c' (.step i label)).isSome = true) ∧
        (s.response = some .accepted → ∀ job ∈ jobs, c'.shared.queue.Known job.jobId) ∧
        (s.response = some .unavailable → ¬ s.Added) := by
  obtain ⟨s, hs, hinv⟩ := run_request hi trivial hrun
  obtain ⟨s', hs', hjobs, hleft⟩ := run_stepsLeft hi hrun
  obtain rfl := QueueCall.webhook.inj (Option.some.inj (hs.symm.trans hs'))
  obtain ⟨haccepted, hunavailable⟩ := hinv.answer
  refine ⟨(Nat.le_add_right _ _).trans hleft, s, hs, can_step hs, fun h job hjob => ?_,
    hunavailable⟩
  rw [← show s.jobs = jobs from hjobs] at hjob
  exact haccepted h job hjob

end

/-! ### A batch that is enqueued in part -/

def earlyShot : SwingmetricShot :=
  { sampleShot with ts_ms := ⟨1710498644999, by decide, by decide⟩ }

def lateShot : SwingmetricShot :=
  { sampleShot with ts_ms := ⟨1710498655456, by decide, by decide⟩ }

def twoShots : SwingmetricPayload :=
  { sampleBatch ⟨"player-1", by decide, by decide⟩ ⟨"device-1", by decide, by decide⟩ with
    shots := [earlyShot, lateShot]
    shots_min := by decide
    shots_max := by decide }

def jobOf (payload : SwingmetricPayload) (shot : SwingmetricShot) (ulid : String) : ShotJob where
  vendor := .swingmetric
  normalisedShot := swingmetricShot driveSha256 ulid shot payload 1710498660000 shot.ts_ms.value
  correlationId := "4c7f2a44-6a51-4b8e-9f0c-3d6a1f6f2b10"
  receivedAtUtc := 1710498660000

def batchJobs : List ShotJob :=
  [jobOf twoShots earlyShot firstId, jobOf twoShots lateShot secondId]

/-- The batch of another player. -/
def otherJob (player : ZString 1 255) : ShotJob :=
  jobOf (sampleBatch player ⟨"device-2", by decide, by decide⟩) sampleShot firstId

/-- The batch has been parsed; nothing is in the queue. -/
def batchArrived : Config where
  shared := { Service.freshWorld with queue := .empty }
  threads := Function.update (fun _ => none) 0 (some (.webhook (.checkBatchCapacity batchJobs)))

/-- Two requests come in between, one before each call's check. -/
def partialActions : List Action :=
  [.step 0 (.webhook .capacity),
    .spawn 1 (.webhook (.checkBatchCapacity [otherJob ⟨"player-2", by decide, by decide⟩])),
    .step 1 (.webhook .capacity), .step 1 (.webhook (.enqueue 0)), .step 1 (.webhook (.enqueue 0)),
    .step 0 (.webhook (.enqueue 0)),
    .spawn 2 (.webhook (.checkBatchCapacity [otherJob ⟨"player-3", by decide, by decide⟩])),
    .step 2 (.webhook .capacity), .step 2 (.webhook (.enqueue 0)), .step 2 (.webhook (.enqueue 0)),
    .step 0 (.webhook (.enqueue 1)), .step 0 (.webhook (.enqueue 0))]

def afterPartial : Config :=
  ((system ⟨driveSha256, fun _ => none⟩ 2).execAll batchArrived partialActions).getD batchArrived

def requestOf : QueueCall → Option WebhookState
  | .webhook s => some s
  | _ => none

/-- Without the condition a batch is refused when one of its jobs has been added. -/
theorem batches_not_all_or_nothing :
    ¬ ∀ (deps : Deps) (maxDepth i : ℕ) (c c' : Config) (as : List Action) (jobs : List ShotJob)
        (payload : SwingmetricPayload) (ulid : ℕ → String) (receivedAtUtc : ℤ),
      parseSwingmetric deps.sha256 ulid payload receivedAtUtc = .ok (jobs.map (·.normalisedShot)) →
      c.threads i = some (.webhook (.checkBatchCapacity jobs)) →
      (system deps maxDepth).Run (fun _ => Starts) c as c' →
      ∃ s, c'.threads i = some (.webhook s) ∧
        (s.response = some .accepted → ∀ job ∈ jobs, c'.shared.queue.Known job.jobId) ∧
        (s.response = some .unavailable → ¬ s.Added) := by
  intro h
  have hstarts : ∀ a ∈ partialActions, Starts a := by
    simp [partialActions, Starts]
  obtain ⟨s, hs, _, hunavailable⟩ := h ⟨driveSha256, fun _ => none⟩ 2 0 batchArrived _
    partialActions batchJobs twoShots (fun k => if k = 0 then firstId else secondId) 1710498660000
    rfl rfl (System.run_of_isSome (fun a ha _ => hstarts a ha) (by decide))
  have hrequest : ((afterPartial.threads 0).bind requestOf).map
      (fun s => (s.response, decide s.Added)) = some (some .unavailable, true) := by
    decide
  rw [show afterPartial.threads 0 = _ from hs, Option.bind_some, requestOf, Option.map_some,
    Option.some_inj, Prod.mk.injEq] at hrequest
  exact hunavailable hrequest.1 (of_decide_eq_true hrequest.2)

/-- The same requests, and the second call of the batch adds its job as well. -/
def wholeActions : List Action := partialActions ++ [.step 0 (.webhook (.enqueue 1))]

def afterWhole : Config :=
  ((system ⟨driveSha256, fun _ => none⟩ 10000).execAll batchArrived wholeActions).getD batchArrived

def pendingOf (s : WebhookState) : ℕ :=
  match s with
  | .enqueuing calls => pending calls
  | _ => 0

/-- On the way there is room for one job more. -/
theorem wholeActions_room : ∀ k < wholeActions.length,
    ((system ⟨driveSha256, fun _ => none⟩ 10000).execAll batchArrived (wholeActions.take k)).map
      (fun d => decide (d.shared.queue.getWaitingCount +
        (((d.threads 0).bind requestOf).map pendingOf).getD 0 < 10000)) = some true := by
  decide +kernel

/-- Then there is a job for both shots. -/
theorem batches_all_or_nothing_whole :
    batchJobs.length = 2 ∧ ∀ job ∈ batchJobs, afterWhole.shared.queue.Known job.jobId := by
  have hrun : (system ⟨driveSha256, fun _ => none⟩ 10000).Run (BatchUndisturbed 10000 0)
      batchArrived wholeActions afterWhole := by
    refine System.run_of_guards (by decide) fun k a d ha hd => ⟨fun _ calls hi _ => ?_, ?_⟩
    · obtain ⟨hk, _⟩ := List.getElem?_eq_some_iff.mp ha
      have hroom := wholeActions_room k hk
      rw [hd, Option.map_some, Option.some_inj, decide_eq_true_eq, hi] at hroom
      exact hroom
    · rintro jobId rfl
      have hmem := List.mem_of_getElem? ha
      simp [wholeActions, partialActions] at hmem
  obtain ⟨_, s, hs, _, haccepted, _⟩ := batches_all_or_nothing rfl hrun
  have hrequest : ((afterWhole.threads 0).bind requestOf).map (·.response) =
      some (some .accepted) := by
    decide
  rw [hs, Option.bind_some, requestOf, Option.map_some, Option.some_inj] at hrequest
  exact ⟨rfl, haccepted hrequest⟩

end JobQueue

end PureplayIngest
