import PureplayIngest.Webhooks.BatchEnqueue
import PureplayIngest.Webhooks.VendorControllers

/-!
What the answer to a request says.

A request that its controller refuses never comes to the queue, and its status
says why. One that is let through has a call of `enqueue` for each shot, and
these go on among the calls of other requests and the workers. The answer then
says that there has been a job for each shot, or that there has not been room
for them.

What comes before the guard is left out, and so are the ids of jobs that BullMQ
itself refuses.
-/

namespace PureplayIngest

open Shared Shared.Domain Ingestion Lib Webhooks

namespace Ingestion

/-- The message is that of a single shot; of a batch it has the numbers as well. -/
def Response.status (correlationId : String) : Response → ℕ
  | .accepted => 202
  | .unavailable => (reply correlationId
      (serviceUnavailable "Queue is at capacity. Retry after 30 seconds.")).status

end Ingestion

namespace JobQueue

/-- The answer to request `i`, once there is one. -/
def answer (wd : WebhookDeps) (request : HttpRequest) (i : ℕ) (c : Config) : Option ℕ :=
  match handle wd request with
  | .error thrown => some (reply request.correlationId thrown).status
  | .ok _ =>
      match c.threads i with
      | some (.webhook s) => s.response.map (Response.status request.correlationId)
      | _ => none

/-- What an answer stands for when the service has gone through the
configurations of `past`. -/
inductive AnswerMeans (wd : WebhookDeps) (request : HttpRequest) (maxDepth : ℕ)
    (past : List Config) : ℕ → Prop
  | refused {n : ℕ} (hverdict : Verdict wd request n) (hn : n ≠ 202) :
      AnswerMeans wd request maxDepth past n
  | accepted {body : AcceptedBody} {shots : List NormalisedShot}
      (hguard : Authentic wd request) (hschema : Accepts request.vendor request.body body)
      (hparse : body.parse wd.sha256 request.ulid request.receivedAt = .ok shots)
      (hwindow : ∀ shot ∈ shots, InWindow request.receivedAt shot.captured_at_utc)
      (hknown : ∀ shot ∈ shots, ∃ d ∈ past, d.shared.queue.Known shot.idempotency_key) :
      AnswerMeans wd request maxDepth past 202
  | unavailable {body : AcceptedBody} {shots : List NormalisedShot}
      (hguard : Authentic wd request) (hschema : Accepts request.vendor request.body body)
      (hparse : body.parse wd.sha256 request.ulid request.receivedAt = .ok shots)
      (hwindow : ∀ shot ∈ shots, InWindow request.receivedAt shot.captured_at_utc)
      (hfull : ∃ d ∈ past, maxDepth < d.shared.queue.getWaitingCount + shots.length) :
      AnswerMeans wd request maxDepth past 503

/-! ### What a request has seen of the queue -/

/-- The call has returned because of a job, or found the queue full. -/
def CallAccounted (maxDepth : ℕ) (past : List Config) : EnqueueState → Prop
  | .returned job _ => ∃ d ∈ past, d.shared.queue.Known job.jobId
  | .unavailable _ => ∃ d ∈ past, maxDepth ≤ d.shared.queue.getWaitingCount
  | _ => True

def Accounted (maxDepth : ℕ) (past : List Config) : WebhookState → Prop
  | .checkBatchCapacity _ => True
  | .refused jobs => ∃ d ∈ past, maxDepth < d.shared.queue.getWaitingCount + jobs.length
  | .enqueuing calls => ∀ call ∈ calls, CallAccounted maxDepth past call

section

variable {deps : Deps} {wd : WebhookDeps} {request : HttpRequest} {maxDepth i n : ℕ}
  {c c' : Config} {a : Action} {as : List Action} {past past' : List Config}
  {s s₀ s' : WebhookState} {label : WebhookLabel} {call call' : EnqueueState}

theorem CallAccounted.mono (h : CallAccounted maxDepth past call) (hsub : past ⊆ past') :
    CallAccounted maxDepth past' call := by
  cases call with
  | returned job isNew => exact h.imp fun d hd => ⟨hsub hd.1, hd.2⟩
  | unavailable job => exact h.imp fun d hd => ⟨hsub hd.1, hd.2⟩
  | _ => trivial

theorem Accounted.mono (h : Accounted maxDepth past s) (hsub : past ⊆ past') :
    Accounted maxDepth past' s := by
  cases s with
  | checkBatchCapacity jobs => trivial
  | refused jobs => exact h.imp fun d hd => ⟨hsub hd.1, hd.2⟩
  | enqueuing calls => exact fun call hcall => (h call hcall).mono hsub

/-- What a call finds in the queue or adds to it is there before its step or after. -/
theorem EnqueueStep.callAccounted
    (h : EnqueueStep maxDepth c.shared.queue call c'.shared.queue call') (hc : c ∈ past)
    (hc' : c' ∈ past) : CallAccounted maxDepth past call' := by
  generalize hq' : c'.shared.queue = q' at h
  cases h with
  | full job hfull => exact ⟨c, hc, hfull⟩
  | room job hroom => trivial
  | known job hknown => exact ⟨c, hc, hknown⟩
  | added job hnew =>
      refine ⟨c', hc', ?_⟩
      rw [hq']
      exact Keyed.known_add.mpr (.inr rfl)

theorem WebhookStep.accounted
    (h : WebhookStep maxDepth c.shared.queue s label c'.shared.queue s')
    (hs : Accounted maxDepth past s) (hc : c ∈ past) (hc' : c' ∈ past) :
    Accounted maxDepth past s' := by
  generalize hq' : c'.shared.queue = q' at h
  cases h with
  | refuse jobs hfull => exact ⟨c, hc, hfull⟩
  | enough jobs hroom =>
      intro call hcall
      obtain ⟨job, _, rfl⟩ := List.mem_map.mp hcall
      trivial
  | enqueue hcall hstep =>
      intro call hmem
      obtain hmem | rfl := List.mem_or_eq_of_mem_set hmem
      · exact hs call hmem
      · rw [← hq'] at hstep
        exact hstep.callAccounted hc hc'

/-- Whatever else goes on, a request accounts for its calls. -/
theorem run_accounted (hi : c.threads i = some (.webhook s₀)) (hstart : Accounted maxDepth [c] s₀)
    (hrun : (system deps maxDepth).Run System.free c as c') :
    ∃ s, c'.threads i = some (.webhook s) ∧
      Accounted maxDepth ((system deps maxDepth).passed c as) s := by
  refine hrun.history (I := fun past c => ∃ s, c.threads i = some (.webhook s) ∧
    Accounted maxDepth past s) ⟨s₀, hi, hstart⟩ ?_
  rintro past d a d' hd ⟨s, hs, haccounted⟩ _ hexec
  have hlonger := haccounted.mono (List.subset_append_left past [d'])
  obtain ⟨s', hs', ⟨label, rfl, hstep⟩ | ⟨_, rfl⟩⟩ := exec_own_or_other hs hexec
  · exact ⟨s', hs', hstep.accounted hlonger (List.mem_append_left _ hd)
      (List.mem_append_right _ (List.mem_singleton_self d'))⟩
  · exact ⟨s', hs', hlonger⟩

/-! ### The answer -/

/-- What the controller hands to the queue is at its beginning. -/
theorem enqueue_start (maxDepth : ℕ) (past : List Config) (body : AcceptedBody)
    (jobs : List ShotJob) :
    Accounted maxDepth past (body.enqueue jobs) ∧ (body.enqueue jobs).jobs = jobs ∧
      (body.enqueue jobs).stepsLeft ≤ 2 * jobs.length + 1 := by
  have hcalls : Accounted maxDepth past (.enqueuing (jobs.map .check)) ∧
      (WebhookState.enqueuing (jobs.map .check)).jobs = jobs ∧
      (WebhookState.enqueuing (jobs.map .check)).stepsLeft ≤ 2 * jobs.length + 1 := by
    refine ⟨fun call hcall => ?_, ?_, ?_⟩
    · obtain ⟨job, _, rfl⟩ := List.mem_map.mp hcall
      trivial
    · simp [WebhookState.jobs, Function.comp_def, EnqueueState.job]
    · simp [WebhookState.stepsLeft, Function.comp_def, EnqueueState.stepsLeft, Nat.mul_comm]
  cases body with
  | swingmetric payload => exact ⟨trivial, rfl, le_rfl⟩
  | _ => exact hcalls

theorem Accounted.known (h : Accounted maxDepth past s) (haccepted : s.response = some .accepted) :
    ∀ job ∈ s.jobs, ∃ d ∈ past, d.shared.queue.Known job.jobId := by
  cases s with
  | checkBatchCapacity jobs => exact absurd haccepted (by simp [WebhookState.response])
  | refused jobs => exact absurd haccepted (by simp [WebhookState.response])
  | enqueuing calls =>
      rw [WebhookState.response] at haccepted
      split at haccepted
      · exact absurd haccepted (by simp)
      · split at haccepted
        · rename_i hall
          intro job hjob
          obtain ⟨call, hmem, rfl⟩ := List.mem_map.mp hjob
          have hcall := List.all_eq_true.mp hall call hmem
          have haccounted := h call hmem
          cases call with
          | returned job isNew => exact haccounted
          | _ => exact absurd hcall (by simp [EnqueueState.hasReturned])
        · exact absurd haccepted (by simp)

theorem Accounted.full (h : Accounted maxDepth past s)
    (hunavailable : s.response = some .unavailable) :
    ∃ d ∈ past, maxDepth < d.shared.queue.getWaitingCount + s.jobs.length := by
  cases s with
  | checkBatchCapacity jobs => exact absurd hunavailable (by simp [WebhookState.response])
  | refused jobs => exact h
  | enqueuing calls =>
      rw [WebhookState.response] at hunavailable
      split at hunavailable
      · rename_i hany
        obtain ⟨call, hmem, hcall⟩ := List.any_eq_true.mp hany
        have haccounted := h call hmem
        have hpos : 0 < (WebhookState.enqueuing calls).jobs.length :=
          List.length_pos_of_mem (List.mem_map_of_mem (f := (·.job)) hmem)
        cases call with
        | unavailable job =>
            obtain ⟨d, hd, hfull⟩ := haccounted
            exact ⟨d, hd, by omega⟩
        | _ => exact absurd hcall (by simp [EnqueueState.isUnavailable])
      · split at hunavailable
        · exact absurd hunavailable (by simp)
        · exact absurd hunavailable (by simp)

theorem answer_of_refused (hverdict : Verdict wd request n) (hn : n ≠ 202) :
    answer wd request i c = some n := by
  have hstatus := hverdict.status_eq
  rw [status] at hstatus
  rw [answer]
  cases hhandle : handle wd request with
  | error thrown =>
      rw [hhandle] at hstatus
      exact congrArg some hstatus
  | ok s =>
      rw [hhandle] at hstatus
      exact absurd hstatus.symm hn

theorem answerMeans_of_answer
    (hstart : ∀ s, handle wd request = .ok s → c.threads i = some (.webhook s))
    (hrun : (system deps maxDepth).Run System.free c as c')
    (hanswer : answer wd request i c' = some n) :
    AnswerMeans wd request maxDepth ((system deps maxDepth).passed c as) n := by
  cases hhandle : handle wd request with
  | error thrown =>
      have hverdict := verdict_status wd request
      rw [answer, hhandle] at hanswer
      rw [status, hhandle] at hverdict
      obtain rfl := Option.some.inj hanswer
      exact .refused hverdict (hverdict.ne_accepted hhandle)
  | ok s =>
      obtain ⟨body, shots, hguard, hschema, hparse, hwindow, rfl⟩ := handle_ok hhandle
      obtain ⟨haccounted, hjobs, _⟩ :=
        enqueue_start maxDepth [c] body (shots.map request.job)
      obtain ⟨s, hs, hpast⟩ := run_accounted (hstart _ hhandle) haccounted hrun
      obtain ⟨s', hs', hsame, _⟩ := run_stepsLeft (hstart _ hhandle) hrun
      obtain rfl := QueueCall.webhook.inj (Option.some.inj (hs.symm.trans hs'))
      rw [answer, hhandle] at hanswer
      simp only [hs] at hanswer
      have hown : s.jobs = shots.map request.job := hsame.trans hjobs
      obtain ⟨response, hresponse, rfl⟩ := Option.map_eq_some_iff.mp hanswer
      cases response with
      | accepted =>
          refine .accepted hguard hschema hparse hwindow fun shot hshot => ?_
          refine hpast.known hresponse (request.job shot) ?_
          rw [hown]
          exact List.mem_map_of_mem hshot
      | unavailable =>
          refine .unavailable hguard hschema hparse hwindow ?_
          have hfull := hpast.full hresponse
          rwa [hown, List.length_map] at hfull

/-- What an answer means. In every run in which the request, if its controller
lets it through, is handed to the queue: it is refused with the status of the
reason that there is to refuse it, and at once; when it is let through, 202 is
the answer only after a job has been known for each of its shots, and 503 only
after the waiting jobs and its own have been more than the queue may hold; and
it is answered within two steps for each shot and one more, which it can take. -/
theorem answer_means
    (hstart : ∀ s, handle wd request = .ok s → c.threads i = some (.webhook s))
    (hrun : (system deps maxDepth).Run System.free c as c') :
    (∀ n, n ≠ 202 → Verdict wd request n → answer wd request i c' = some n) ∧
      (∀ n, answer wd request i c' = some n →
        AnswerMeans wd request maxDepth ((system deps maxDepth).passed c as) n) ∧
      ∀ s, handle wd request = .ok s →
        as.countP (·.isStepOf i) ≤ 2 * s.jobs.length + 1 ∧
          (answer wd request i c' = none →
            ∃ label, ((program deps maxDepth).exec c' (.step i label)).isSome = true) := by
  refine ⟨fun n hn hverdict => answer_of_refused hverdict hn,
    fun n => answerMeans_of_answer hstart hrun, fun s hs => ?_⟩
  obtain ⟨body, shots, _, _, _, _, rfl⟩ := handle_ok hs
  obtain ⟨_, hjobs, hleft⟩ :=
    enqueue_start maxDepth [c] body (shots.map request.job)
  obtain ⟨s', hs', _, hsteps⟩ := run_stepsLeft (hstart _ hs) hrun
  refine ⟨?_, fun hnone => can_step hs' ?_⟩
  · rw [hjobs]
    exact (Nat.le_add_right _ _).trans (hsteps.trans hleft)
  · rw [answer, hs] at hnone
    simpa [hs'] using hnone

end

/-! ### A batch that is answered while others are at work -/

def batchHook : WebhookDeps where
  hmac _ _ := ""
  sha256 := driveSha256
  config _ := none
  issues _ := []

def batchHttp : HttpRequest where
  vendor := .swingmetric
  headers _ := none
  rawBody := []
  body := some twoShots.toJson
  uuid := "4c7f2a44-6a51-4b8e-9f0c-3d6a1f6f2b10"
  ulid k := if k = 0 then firstId else secondId
  guardedAt := 1710498660000
  receivedAt := 1710498660000

theorem handle_batch : handle batchHook batchHttp = .ok (.checkBatchCapacity batchJobs) := by
  have hparse : (AcceptedBody.swingmetric twoShots).parse batchHook.sha256 batchHttp.ulid
      batchHttp.receivedAt = .ok (batchJobs.map (·.normalisedShot)) := rfl
  have hguard : Authentic batchHook batchHttp := by
    rw [Authentic]
    rfl
  have hschema : Accepts batchHttp.vendor batchHttp.body (.swingmetric twoShots) :=
    .swingmetric (swingmetricSchema_toJson twoShots)
  rw [handle_of_accepted hguard hschema, receive_of_ok hparse, (any_skewed_iff hparse).mpr]
  · rfl
  · have htimes : ∀ t ∈ [earlyShot.ts_ms.value, lateShot.ts_ms.value],
        1710498660000 - 86400000 ≤ t ∧ t ≤ 1710498660000 + 300000 := by decide
    exact htimes

/-- With room for two jobs the requests in between are one too many, and with
room for more they are not. -/
theorem answer_means_batch :
    (AnswerMeans batchHook batchHttp 2
      ((system ⟨driveSha256, fun _ => none⟩ 2).passed batchArrived partialActions) 503) ∧
    (AnswerMeans batchHook batchHttp 10000
      ((system ⟨driveSha256, fun _ => none⟩ 10000).passed batchArrived wholeActions) 202) := by
  have hstart : ∀ s, handle batchHook batchHttp = .ok s →
      batchArrived.threads 0 = some (.webhook s) := by
    intro s hs
    obtain rfl := Except.ok.inj (handle_batch.symm.trans hs)
    rfl
  have hanswer {n : ℕ} {response : Response} {c : Config} {s : WebhookState}
      (hs : c.threads 0 = some (.webhook s)) (hresponse : s.response = some response)
      (hn : response.status batchHttp.correlationId = n) :
      answer batchHook batchHttp 0 c = some n := by
    rw [answer, handle_batch]
    simp only [hs, hresponse, Option.map_some, hn]
  constructor
  · have hrun : (system ⟨driveSha256, fun _ => none⟩ 2).Run System.free batchArrived
        partialActions afterPartial := System.run_of_isSome (fun _ _ _ => trivial) (by decide)
    exact (answer_means hstart hrun).2.1 503 (hanswer rfl rfl rfl)
  · have hrun : (system ⟨driveSha256, fun _ => none⟩ 10000).Run System.free batchArrived
        wholeActions afterWhole := System.run_of_isSome (fun _ _ _ => trivial) (by decide)
    exact (answer_means hstart hrun).2.1 202 (hanswer rfl rfl rfl)

end JobQueue

end PureplayIngest
