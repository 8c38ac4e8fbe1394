import PureplayIngest.Webhooks.BatchEnqueue

/-!
A batch that is let in while no other request is at work.

The check of a batch and the check of a call compare the count of waiting jobs
with the same bound. What is left of the room the batch was let in with covers
the calls that have still to add a job, so none of them can find the queue
full, however old the count is that it goes by.
-/

namespace PureplayIngest

open Shared.Domain Shared.Kysely Identity Ingestion Lib Webhooks

namespace JobQueue

/-- Nothing but request `i` puts a job among those that wait. -/
def Quiet (i : ℕ) : Action → Prop
  | .spawn _ (.webhook _) => False
  | .step j (.webhook _) => j = i
  | .env (.promote _) => False
  | .env (.stalled _) => False
  | _ => True

/-! ### Runs of the request -/

section

variable {deps : Deps} {maxDepth i : ℕ} {c c₁ c' : Config} {a : Action} {as : List Action}
  {calls : List EnqueueState} {w w' : QueueWorld}

theorem Quiet.not_addsWaiting (h : Quiet i a) : ¬ AddsWaiting i c a := by
  intro hadds
  cases a with
  | spawn j p => exact hadds
  | step j e =>
      cases e with
      | webhook label =>
          cases label with
          | enqueue k => exact hadds.1 h
          | capacity => exact hadds
      | worker label => exact hadds
      | service label => exact hadds
  | env x =>
      cases x with
      | promote jobId => exact h
      | stalled jobId => exact h
      | _ => exact hadds

/-- Nobody else adds jobs meanwhile, and workers only take them. -/
theorem exec_admitted (hi : c.threads i = some (.webhook (.enqueuing calls)))
    (hinv : RoomInv maxDepth c.shared.queue calls) (hquiet : Quiet i a)
    (hexec : (program deps maxDepth).exec c a = some c') :
    ∃ calls', c'.threads i = some (.webhook (.enqueuing calls')) ∧
      RoomInv maxDepth c'.shared.queue calls' := by
  obtain ⟨s', hi', ⟨label, rfl, hstep⟩ | ⟨hother, rfl⟩⟩ := exec_own_or_other hi hexec
  · generalize hq' : c'.shared.queue = q' at hstep
    cases hstep with
    | enqueue hcall henqueue => exact ⟨_, hi', hinv.set henqueue hcall⟩
  · have hle := (exec_other hother hexec).1.resolve_right fun h => hquiet.not_addsWaiting h.1
    exact ⟨calls, hi', hinv.available, (Nat.add_le_add_right hle _).trans hinv.room⟩

theorem run_admitted (hi : c.threads i = some (.webhook (.enqueuing calls)))
    (hinv : RoomInv maxDepth c.shared.queue calls)
    (hrun : (system deps maxDepth).Run (fun _ => Quiet i) c as c') :
    ∃ calls', c'.threads i = some (.webhook (.enqueuing calls')) ∧
      RoomInv maxDepth c'.shared.queue calls' := by
  induction hrun generalizing calls with
  | nil c => exact ⟨calls, hi, hinv⟩
  | @cons c d e a as hguard hexec tail ih =>
      obtain ⟨calls₁, hi₁, hinv₁⟩ := exec_admitted hi hinv hguard hexec
      exact ih hi₁ hinv₁

/-- A batch that is let in on a quiet queue goes through as a whole. No call
finds the queue full, and it never holds more waiting jobs than it may; each
call needs two steps, and can take them. -/
theorem admitted_batch_fits {jobs : List ShotJob}
    (hi : c.threads i = some (.webhook (.checkBatchCapacity jobs)))
    (hcheck : (program deps maxDepth).exec c (.step i (.webhook .capacity)) = some c₁)
    (hadmitted : c₁.threads i ≠ some (.webhook (.refused jobs)))
    (hrun : (system deps maxDepth).Run (fun _ => Quiet i) c₁ as c') :
    ∃ calls, c'.threads i = some (.webhook (.enqueuing calls)) ∧ calls.map (·.job) = jobs ∧
      (∀ call ∈ calls, call.isUnavailable = false) ∧
      c'.shared.queue.getWaitingCount ≤ maxDepth ∧
      as.countP (·.isStepOf i) ≤ 2 * jobs.length ∧
      (calls.all (·.hasReturned) = true ∨
        ∃ label, ((program deps maxDepth).exec c' (.step i label)).isSome = true) := by
  obtain ⟨hi₁, hinv₁⟩ : c₁.threads i = some (.webhook (.enqueuing (jobs.map .check))) ∧
      RoomInv maxDepth c₁.shared.queue (jobs.map .check) := by
    obtain ⟨j, p, h, _⟩ | ⟨j, e, p, w', r, h, hj, hstep, rfl⟩ | ⟨x, w', h, _⟩ :=
      Program.exec_cases hcheck
    · exact absurd h (by simp)
    · obtain ⟨rfl, rfl⟩ := Lib.Action.step.inj h
      obtain rfl := Option.some.inj (hi.symm.trans hj)
      have hcases : Step deps maxDepth i c.shared (.webhook (.checkBatchCapacity jobs))
          (.webhook .capacity) w' r := step_cases hstep
      cases hcases with
      | webhook hwebhook =>
          cases hwebhook with
          | refuse _ hfull => exact absurd (Function.update_self ..) hadmitted
          | enough _ hroom => exact ⟨Function.update_self .., roomInv_of_check hroom⟩
    · exact absurd h (by simp)
  -- From the check on the invariant keeps a place in the queue for every call that is not done.
  obtain ⟨calls, hcalls, hinv⟩ := run_admitted hi₁ hinv₁ hrun
  obtain ⟨s, hs, hjobs, hleft⟩ := run_stepsLeft hi₁ hrun
  obtain rfl := QueueCall.webhook.inj (Option.some.inj (hcalls.symm.trans hs))
  have hsteps : (WebhookState.enqueuing (jobs.map .check)).stepsLeft = 2 * jobs.length := by
    simp [WebhookState.stepsLeft, Function.comp_def, EnqueueState.stepsLeft, Nat.mul_comm]
  have hsame : (WebhookState.enqueuing (jobs.map .check)).jobs = jobs := by
    simp [WebhookState.jobs, Function.comp_def, EnqueueState.job]
  refine ⟨calls, hcalls, hjobs.trans hsame, hinv.available,
    (Nat.le_add_right _ _).trans hinv.room, hsteps ▸ (Nat.le_add_right _ _).trans hleft, ?_⟩
  rw [or_iff_not_imp_left]
  intro hall
  have hany : ¬ calls.any (·.isUnavailable) = true := fun hany => by
    obtain ⟨call, hmem, hcall⟩ := List.any_eq_true.mp hany
    exact absurd ((hinv.available call hmem).symm.trans hcall) (by simp)
  exact can_step hcalls (by rw [WebhookState.response, if_neg hany, if_neg hall])

end

/-! ### A batch of two, let in where there is room for two -/

def tightSystem : System Config Action := system ⟨driveSha256, fun _ => none⟩ 2

def batchAdmitted : Config :=
  ((program ⟨driveSha256, fun _ => none⟩ 2).exec batchArrived
    (.step 0 (.webhook .capacity))).getD batchArrived

/-- Both calls go by the count of an empty queue. -/
def staleActions : List Action :=
  [.step 0 (.webhook (.enqueue 0)), .step 0 (.webhook (.enqueue 1)),
    .step 0 (.webhook (.enqueue 0)), .step 0 (.webhook (.enqueue 1))]

def afterStale : Config := (tightSystem.execAll batchAdmitted staleActions).getD batchAdmitted

theorem admitted_batch_fits_tight :
    afterStale.shared.queue.getWaitingCount = 2 ∧
      ∃ calls, afterStale.threads 0 = some (.webhook (.enqueuing calls)) ∧
        calls.map (·.job) = batchJobs ∧ ∀ call ∈ calls, call.isUnavailable = false := by
  have hcheck : (program ⟨driveSha256, fun _ => none⟩ 2).exec batchArrived
      (.step 0 (.webhook .capacity)) = some batchAdmitted := rfl
  have hquiet : ∀ a ∈ staleActions, Quiet 0 a := by
    simp [staleActions, Quiet]
  have hrun : tightSystem.Run (fun _ => Quiet 0) batchAdmitted staleActions afterStale :=
    System.run_of_isSome (fun a ha _ => hquiet a ha) (by decide)
  have hadmitted : batchAdmitted.threads 0 =
      some (.webhook (.enqueuing (batchJobs.map .check))) := rfl
  obtain ⟨calls, hcalls, hjobs, havailable, _⟩ :=
    admitted_batch_fits rfl hcheck (by simp [hadmitted]) hrun
  exact ⟨by decide, calls, hcalls, hjobs, havailable⟩

end JobQueue

end PureplayIngest
