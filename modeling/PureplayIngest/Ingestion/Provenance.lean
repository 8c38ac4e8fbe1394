import PureplayIngest.Ingestion.Delivery
import PureplayIngest.Webhooks.VendorControllers

/-!
Where the rows of `shots` come from.

Whatever requests are sent and in whatever order requests, workers and the
other calls move, a row is a shot of a body that was authenticated, accepted by
its vendor's schema, and sent within the window of its time. The check of the
times that a worker makes is that of the controller once more, with the same
times: no attempt ever fails it, and `ingestion_failures` stays empty.
-/

namespace PureplayIngest

open Shared.Domain Shared.Kysely Identity Ingestion Lib Webhooks

namespace JobQueue

/-- The job of a shot in a request that was sent, `P` says which those are, and
that the controller of its vendor let through. -/
inductive Admitted (wd : WebhookDeps) (P : HttpRequest → Prop) : ShotJob → Prop
  | intro (request : HttpRequest) {body : AcceptedBody} {shots : List NormalisedShot}
      {shot : NormalisedShot} (hsent : P request) (hguard : Authentic wd request)
      (hschema : Accepts request.vendor request.body body)
      (hparse : body.parse wd.sha256 request.ulid request.receivedAt = .ok shots)
      (hshot : shot ∈ shots) (hwindow : InWindow request.receivedAt shot.captured_at_utc) :
      Admitted wd P (request.job shot)

/-- The shot of a job, but for its canonical user and its origin. -/
def ShotOf (job : ShotJob) (shot : ShotWithoutPayload) : Prop :=
  shot = { job.normalisedShot.toShotWithoutPayload with
    canonical_user_id := shot.canonical_user_id, duplicate_of := shot.duplicate_of }

/-- Requests come from the controllers, attempts are made by workers only. -/
def StartsFromRequests (wd : WebhookDeps) (P : HttpRequest → Prop) : Action → Prop
  | .spawn _ (.webhook s) => ∃ request, P request ∧ handle wd request = .ok s
  | .spawn _ (.worker s) => s = .idle
  | .spawn _ (.service call) => call.Initial ∧ ∀ s, call ≠ .process s
  | _ => True

/-- No shot has been received yet. -/
structure Blank (w : QueueWorld) : Prop where
  queue : w.queue.entries = []
  shots : w.db.shots = []
  outbox_events : w.db.outbox_events = []
  ingestion_failures : w.db.ingestion_failures = []
  metrics : w.metrics = []

def blankSystem (deps : Deps) (maxDepth : ℕ) : System Config Action :=
  (program deps maxDepth).system Blank

theorem Admitted.checked {wd : WebhookDeps} {P : HttpRequest → Prop} {job : ShotJob}
    (h : Admitted wd P job) : Checked wd.sha256 job := by
  cases h with
  | intro request hsent hguard hschema hparse hshot hwindow =>
      exact ⟨parserProduced_of_parse hparse hshot, hasExcessiveClockSkew_eq_false.mpr hwindow⟩

/-! ### What is kept -/

/-- Rows and events are shots of admitted jobs, and no job has been found skewed. -/
structure FromRequests (wd : WebhookDeps) (P : HttpRequest → Prop) (w : World) : Prop where
  shots : ∀ row ∈ w.db.shots, ∃ job, Admitted wd P job ∧
    ShotOf job row.toShotWithoutPayload ∧ row.raw_payload = job.normalisedShot.raw_payload
  events : ∀ event ∈ w.db.outbox_events, ∃ job, Admitted wd P job ∧ ShotOf job event.payload
  failures : w.db.ingestion_failures = []
  metrics : ∀ vendor version, .shotsTotal vendor "rejected_clock" version ∉ w.metrics

/-- An attempt at an admitted job, that has not found its shot skewed. -/
structure CleanAttempt (wd : WebhookDeps) (P : HttpRequest → Prop) (s : ProcessState) : Prop where
  admitted : Admitted wd P (jobOfAttempt s)
  noFailure : ∀ job, s ≠ .recordFailure job
  pending : ∀ shot, (Call.process s).pendingShot = some shot →
    ∃ c, shot = { (jobOfAttempt s).normalisedShot with canonical_user_id := c }

section

variable {deps : Deps} {wd : WebhookDeps} {P : HttpRequest → Prop} {w w' : World}
  {s s' : ProcessState} {k : ℕ}

theorem cleanAttempt_process {job : ShotJob} (h : Admitted wd P job) :
    CleanAttempt wd P (process job) := by
  rw [h.checked.process_eq]
  refine ⟨h, by simp, fun shot hshot => ?_⟩
  obtain rfl := Option.some.inj hshot
  exact ⟨job.normalisedShot.canonical_user_id, rfl⟩

theorem jobOfAttempt_step (h : s.step deps w k = some (w', s')) :
    jobOfAttempt s' = jobOfAttempt s := by
  cases ProcessState.step_cases h with
  | resolving job hcall =>
      rename_i call call' stores
      cases call' <;> rfl
  | _ => rfl

theorem CleanAttempt.step (hclean : CleanAttempt wd P s) (h : s.step deps w k = some (w', s')) :
    CleanAttempt wd P s' := by
  have hjob := jobOfAttempt_step h
  refine ⟨hjob ▸ hclean.admitted, ?_, fun shot hshot => ?_⟩
  · cases ProcessState.step_cases h with
    | resolving job hcall =>
        rename_i call call' stores
        cases call' <;> simp [Ingestion.afterResolve]
    | _ => simp
  · have hservice : Service.step deps w (.process s) (.ok k) = some (w', .process s') := by
      rw [Service.step, h, Option.map_some]
    obtain ⟨before, c, hbefore, rfl⟩ := step_pendingShot hservice hshot
    obtain ⟨c', rfl⟩ := hclean.pending before hbefore
    rw [hjob]
    exact ⟨c, rfl⟩

theorem CleanAttempt.fail (hclean : CleanAttempt wd P s) (h : s.fail = some s') :
    CleanAttempt wd P s' := by
  obtain ⟨job, rfl⟩ := ProcessState.fail_cases h
  have hjob : jobOfAttempt s = job := by
    cases s with
    | returned _ => exact absurd h (by simp [ProcessState.fail])
    | failed _ => exact absurd h (by simp [ProcessState.fail])
    | _ => exact ProcessState.failed.inj (Option.some.inj h)
  refine ⟨hjob ▸ hclean.admitted, by simp, fun shot hshot => ?_⟩
  exact absurd hshot (by simp [Call.pendingShot])

/-! ### Steps of attempts and of the other calls -/

/-- What the tables hold when shots and events are as before, or were changed
in their users or origins only. -/
theorem FromRequests.of_shots (hfrom : FromRequests wd P w)
    (hshots : ∀ row' ∈ w'.db.shots, ∃ row ∈ w.db.shots, ∃ c o,
      row' = { row with canonical_user_id := c, duplicate_of := o })
    (hevents : ∀ event' ∈ w'.db.outbox_events, ∃ event ∈ w.db.outbox_events, ∃ o,
      event'.payload = { event.payload with duplicate_of := o })
    (hfailures : w'.db.ingestion_failures = w.db.ingestion_failures)
    (hmetrics : ∀ vendor version, .shotsTotal vendor "rejected_clock" version ∈ w'.metrics →
      .shotsTotal vendor "rejected_clock" version ∈ w.metrics) : FromRequests wd P w' := by
  refine ⟨fun row' hrow' => ?_, fun event' hevent' => ?_, hfailures.trans hfrom.failures,
    fun vendor version hmem => hfrom.metrics vendor version (hmetrics vendor version hmem)⟩
  · obtain ⟨row, hrow, c, o, rfl⟩ := hshots row' hrow'
    obtain ⟨job, hjob, hof, hraw⟩ := hfrom.shots row hrow
    refine ⟨job, hjob, ?_, hraw⟩
    rw [ShotOf] at hof ⊢
    rw [hof]
  · obtain ⟨event, hevent, o, ho⟩ := hevents event' hevent'
    obtain ⟨job, hjob, hof⟩ := hfrom.events event hevent
    refine ⟨job, hjob, ?_⟩
    rw [ShotOf] at hof ⊢
    rw [ho, hof]

theorem FromRequests.of_db (hfrom : FromRequests wd P w)
    (hsame : SameShotTables w.db w'.db)
    (hfailures : w'.db.ingestion_failures = w.db.ingestion_failures)
    (hmetrics : ∀ vendor version, .shotsTotal vendor "rejected_clock" version ∈ w'.metrics →
      .shotsTotal vendor "rejected_clock" version ∈ w.metrics) : FromRequests wd P w' := by
  refine hfrom.of_shots (fun row hrow => ?_) (fun event hevent => ?_) hfailures hmetrics
  · exact ⟨row, hsame.shots ▸ hrow, row.canonical_user_id, row.duplicate_of, rfl⟩
  · exact ⟨event, hsame.outbox_events ▸ hevent, event.payload.duplicate_of, rfl⟩

theorem mem_record {metrics : List Metric} {vendor : Vendor} {version : String}
    (h : .shotsTotal vendor "rejected_clock" version ∈ (World.record w metrics).metrics)
    (hnew : .shotsTotal vendor "rejected_clock" version ∉ metrics) :
    .shotsTotal vendor "rejected_clock" version ∈ w.metrics :=
  (List.mem_append.mp h).resolve_right hnew

/-- A step of a clean attempt inserts the shot of its job, or changes what is allowed. -/
theorem FromRequests.process (hfrom : FromRequests wd P w) (hclean : CleanAttempt wd P s)
    (h : s.step deps w k = some (w', s')) : FromRequests wd P w' := by
  cases ProcessState.step_cases h with
  | recordFailure job => exact absurd rfl (hclean.noFailure job)
  | resolving job hcall =>
      have hdb := ResolveState.step_db hcall
      exact hfrom.of_db (.of_eq hdb) (congrArg _ hdb) fun _ _ h => h
  | duplicate job hupsert =>
      cases (upsertIfNew_cases hupsert).2 with
      | duplicate existing mem key heq =>
          subst heq
          exact hfrom.of_db (.refl _) rfl fun _ _ h => mem_record h (by simp [ShotJob.outcome])
  | @inserted job shot db id hupsert =>
      cases (upsertIfNew_cases hupsert).2 with
      | inserted fresh fresh' heq =>
          subst heq
          obtain ⟨c, hc⟩ := hclean.pending shot rfl
          have hof : ShotOf job shot.toShotWithoutPayload := by
            rw [hc]
            rfl
          have hraw : shot.raw_payload = job.normalisedShot.raw_payload := by
            rw [hc]
            rfl
          refine ⟨fun row hrow => ?_, fun event hevent => ?_, hfrom.failures, hfrom.metrics⟩
          · obtain hrow | hrow := List.mem_append.mp hrow
            · exact hfrom.shots row hrow
            · obtain rfl := List.mem_singleton.mp hrow
              exact ⟨job, hclean.admitted, hof, hraw⟩
          · obtain hevent | hevent := List.mem_append.mp hevent
            · exact hfrom.events event hevent
            · obtain rfl := List.mem_singleton.mp hevent
              exact ⟨job, hclean.admitted, hof⟩
  | accepted job id hnone =>
      exact hfrom.of_db (.refl _) rfl fun _ _ h =>
        mem_record h (by simp [ShotJob.outcome, ShotJob.lag])
  | choose job id hrows horigin => exact hfrom
  | flag job shot id origin =>
      refine hfrom.of_shots (fun row' hrow' => ?_)
        (fun event hevent => ⟨event, hevent, event.payload.duplicate_of, rfl⟩) rfl
        fun _ _ h => mem_record h (by simp [ShotJob.outcome])
      obtain ⟨row, hrow, rfl⟩ := List.mem_map.mp hrow'
      split
      · exact ⟨row, hrow, row.canonical_user_id, some origin, rfl⟩
      · exact ⟨row, hrow, row.canonical_user_id, row.duplicate_of, rfl⟩

/-- The other calls change the users of rows at most. -/
theorem FromRequests.service {call call' : Call} {label : Label} (hfrom : FromRequests wd P w)
    (hcall : ∀ s, call ≠ .process s) (h : Service.step deps w call label = some (w', call')) :
    FromRequests wd P w' := by
  have heffect := step_tablesEffect h
  -- Of the effects on shots and events only the backfill's is another call's.
  have hkeep (hfailures : w'.db.ingestion_failures = w.db.ingestion_failures)
      (hmetrics : w'.metrics = w.metrics) : FromRequests wd P w' := by
    have hsame : ∀ vendor version, .shotsTotal vendor "rejected_clock" version ∈ w'.metrics →
        .shotsTotal vendor "rejected_clock" version ∈ w.metrics := fun _ _ hmem => hmetrics ▸ hmem
    cases heffect with
    | frame htables => exact hfrom.of_db htables hfailures hsame
    | insert job => exact absurd rfl (hcall _)
    | flag job shot id origin => exact absurd rfl (hcall _)
    | backfill pair user row hdb =>
        refine hfrom.of_shots (fun row' hrow' => ?_) (fun event hevent => ?_) hfailures hsame
        · rw [hdb] at hrow'
          obtain ⟨row, hrow, rfl⟩ := List.mem_map.mp hrow'
          split
          · exact ⟨row, hrow, some user, row.duplicate_of, rfl⟩
          · exact ⟨row, hrow, row.canonical_user_id, row.duplicate_of, rfl⟩
        · rw [hdb] at hevent
          exact ⟨event, hevent, event.payload.duplicate_of, rfl⟩
  refine hkeep (step_failures (fun job => hcall _) h) ?_
  cases Service.step_cases h with
  | process hstep => exact absurd rfl (hcall _)
  | _ => rfl

theorem FromRequests.event {x : Event} (hfrom : FromRequests wd P w)
    (h : Service.event w x = some w') : FromRequests wd P w' := by
  cases x with
  | expire key =>
      obtain rfl := Option.some.inj h
      exact hfrom.of_db (.refl _) rfl fun _ _ h => h
  | tick ms =>
      obtain rfl := Option.some.inj h
      exact hfrom.of_db ⟨rfl, rfl, rfl⟩ rfl fun _ _ h => h

end

/-! ### Runs -/

section

variable {deps : Deps} {wd : WebhookDeps} {P : HttpRequest → Prop} {maxDepth i : ℕ}
  {c c' : Config} {a : Action} {w w' : QueueWorld} {q q' : Queue}

def AdmittedJobs (wd : WebhookDeps) (P : HttpRequest → Prop) (q : Queue) : Prop :=
  ∀ queued ∈ q.entries, Admitted wd P queued.data

/-- What is known of a request, a worker and any other call. -/
def Sourced (wd : WebhookDeps) (P : HttpRequest → Prop) (_ : ℕ) (_ : QueueWorld) :
    QueueCall → Prop
  | .webhook s => ∀ job ∈ s.jobs, Admitted wd P job
  | .worker (.running _ s) => CleanAttempt wd P s
  | .worker _ => True
  | .service call => ∀ s, call ≠ .process s

abbrev ProvenanceInv (wd : WebhookDeps) (P : HttpRequest → Prop) (c : Config) : Prop :=
  Program.Inv (fun w => AdmittedJobs wd P w.queue ∧ FromRequests wd P w.toWorld)
    (Sourced wd P) c

theorem AdmittedJobs.setState {jobId : String} {f : QueuedJob → QueuedJob}
    {hf : ∀ job, (f job).data = job.data} (h : AdmittedJobs wd P q) :
    AdmittedJobs wd P (Queue.setState q jobId f hf) := by
  intro queued hmem
  obtain ⟨hmem, _⟩ | ⟨old, hold, hid, rfl⟩ := (Keyed.mem_modify _).mp hmem
  · exact h queued hmem
  · rw [hf]
    exact h old hold

theorem AdmittedJobs.take {jobId : String} (h : AdmittedJobs wd P q) :
    AdmittedJobs wd P (Queue.take q i jobId) := h.setState

theorem AdmittedJobs.moveToCompleted {jobId : String} {now : ℤ} (h : AdmittedJobs wd P q) :
    AdmittedJobs wd P (Queue.moveToCompleted q i jobId now) := h.setState

theorem AdmittedJobs.moveToFailed {jobId : String} {now : ℤ} (h : AdmittedJobs wd P q) :
    AdmittedJobs wd P (Queue.moveToFailed q i jobId now) := h.setState

theorem AdmittedJobs.toWaiting {jobId : String} (h : AdmittedJobs wd P q) :
    AdmittedJobs wd P (Queue.toWaiting q jobId) := h.setState

theorem WebhookStep.admittedJobs {s s' : WebhookState} {label : WebhookLabel}
    (h : WebhookStep maxDepth q s label q' s') (hjobs : AdmittedJobs wd P q)
    (hown : ∀ job ∈ s.jobs, Admitted wd P job) : AdmittedJobs wd P q' := by
  cases h with
  | @enqueue calls k call call' q' hcall hstep =>
      have hjob : Admitted wd P call.job :=
        hown _ (List.mem_map_of_mem (f := (·.job)) (List.mem_of_getElem? hcall))
      cases hstep with
      | added job hnew =>
          intro queued hmem
          obtain hmem | ⟨rfl, _⟩ := Keyed.mem_add.mp hmem
          · exact hjobs queued hmem
          · exact hjob
      | _ => exact hjobs
  | _ => exact hjobs

theorem WorkerStep.sourced {s s' : WorkerState} {label : WorkerLabel}
    (h : WorkerStep deps i w s label w' s') (hjobs : AdmittedJobs wd P w.queue)
    (hfrom : FromRequests wd P w.toWorld) (hown : Sourced wd P i w (.worker s)) :
    (AdmittedJobs wd P w'.queue ∧ FromRequests wd P w'.toWorld) ∧
      Sourced wd P i w' (.worker s') := by
  cases h with
  | take hjob hwaiting =>
      obtain ⟨hmem, _⟩ := Keyed.mem_of_find hjob
      exact ⟨⟨hjobs.take, hfrom⟩, cleanAttempt_process (hjobs _ hmem)⟩
  | process jobId hstep =>
      exact ⟨⟨hjobs, FromRequests.process hfrom hown hstep⟩, CleanAttempt.step hown hstep⟩
  | fail jobId hfail => exact ⟨⟨hjobs, hfrom⟩, CleanAttempt.fail hown hfail⟩
  | complete jobId job => exact ⟨⟨hjobs.moveToCompleted, hfrom⟩, trivial⟩
  | giveUp jobId job => exact ⟨⟨hjobs.moveToFailed, hfrom⟩, trivial⟩

theorem EventStep.sourced {x : QueueEvent} (h : EventStep w x w')
    (hjobs : AdmittedJobs wd P w.queue) (hfrom : FromRequests wd P w.toWorld) :
    AdmittedJobs wd P w'.queue ∧ FromRequests wd P w'.toWorld := by
  cases h with
  | service hevent => exact ⟨hjobs, FromRequests.event hfrom hevent⟩
  | promote hjob hdelayed => exact ⟨hjobs.toWaiting, hfrom⟩
  | stalled hjob hactive => exact ⟨hjobs.toWaiting, hfrom⟩
  | remove hjob hexpired =>
      exact ⟨fun queued hmem => hjobs queued (Keyed.mem_remove.mp hmem).1, hfrom⟩

/-- The jobs that a controller enqueues. -/
theorem admitted_of_handle {request : HttpRequest} {s : WebhookState} (hsent : P request)
    (h : handle wd request = .ok s) : ∀ job ∈ s.jobs, Admitted wd P job := by
  obtain ⟨body, shots, hguard, hschema, hparse, hwindow, rfl⟩ := handle_ok h
  have hjobs : (body.enqueue (shots.map request.job)).jobs = shots.map request.job := by
    have hcheck (jobs : List ShotJob) : (jobs.map EnqueueState.check).map (·.job) = jobs := by
      rw [List.map_map]
      exact List.map_id _
    cases body with
    | swingmetric payload => rfl
    | _ => exact hcheck _
  rw [hjobs]
  intro job hjob
  obtain ⟨shot, hshot, rfl⟩ := List.mem_map.mp hjob
  exact .intro request hsent hguard hschema hparse hshot (hwindow shot hshot)

/-- What requests start are calls at their beginning, with jobs that are checked. -/
theorem StartsFromRequests.checked (h : StartsFromRequests wd P a) : StartsChecked wd.sha256 a := by
  cases a with
  | spawn j p =>
      cases p with
      | webhook s =>
          obtain ⟨request, hsent, hhandle⟩ := h
          refine ⟨?_, fun k s' heq job hjob => ?_, by simp⟩
          · obtain ⟨body, shots, _, _, hparse, _, rfl⟩ := handle_ok hhandle
            cases body with
            | swingmetric payload => exact .inl ⟨_, rfl⟩
            | trackpro payload =>
                obtain rfl := parseTrackpro_ok hparse
                exact .inr ⟨_, rfl⟩
            | proswing raw payload accepted =>
                obtain rfl := parseProswing_ok hparse
                exact .inr ⟨_, rfl⟩
          · obtain ⟨_, heq⟩ := Lib.Action.spawn.inj heq
            obtain rfl := QueueCall.webhook.inj heq
            exact (admitted_of_handle hsent hhandle job hjob).checked
      | worker s => exact ⟨h, fun k s' heq => absurd heq (by simp), by simp⟩
      | service call =>
          refine ⟨h.1, fun k s' heq => absurd heq (by simp), fun k s heq => ?_⟩
          obtain ⟨_, heq⟩ := Lib.Action.spawn.inj heq
          exact h.2 s (QueueCall.service.inj heq)
  | step j label => exact ⟨trivial, fun k s' heq => absurd heq (by simp), by simp⟩
  | env x => exact ⟨trivial, fun k s' heq => absurd heq (by simp), by simp⟩

theorem step_provenance (hinv : ProvenanceInv wd P c) (hstart : StartsFromRequests wd P a)
    (hexec : (program deps maxDepth).exec c a = some c') : ProvenanceInv wd P c' := by
  refine hinv.step hexec (fun j p ha => ?_) (fun j e p w' r ha hj hstep => ?_)
    (fun x w' ha hevent => ?_)
  · subst ha
    cases p with
    | webhook s =>
        obtain ⟨request, hsent, hhandle⟩ := hstart
        exact admitted_of_handle hsent hhandle
    | worker s =>
        obtain rfl : s = .idle := hstart
        trivial
    | service call => exact hstart.2
  · have hown := hinv.threads j _ hj
    obtain ⟨hjobs, hfrom⟩ := hinv.shared
    cases step_cases hstep with
    | webhook hwebhook =>
        refine ⟨⟨hwebhook.admittedJobs hjobs hown, hfrom⟩, ?_,
          fun k r _ hk => hinv.threads k r hk⟩
        show ∀ job ∈ _, _
        rw [hwebhook.jobs_eq]
        exact hown
    | worker hworker =>
        obtain ⟨hshared, hown'⟩ := hworker.sourced hjobs hfrom hown
        exact ⟨hshared, hown', fun k r _ hk => hinv.threads k r hk⟩
    | service hservice =>
        exact ⟨⟨hjobs, hfrom.service hown hservice⟩, step_not_process hown hservice,
          fun k r _ hk => hinv.threads k r hk⟩
  · obtain ⟨hjobs, hfrom⟩ := hinv.shared
    exact ⟨(event_cases hevent).sourced hjobs hfrom, fun k r hk => hinv.threads k r hk⟩

theorem provenanceInv_of_blank (hblank : Blank c.shared) (hidle : ∀ i, c.threads i = none) :
    ProvenanceInv wd P c := by
  refine ⟨⟨fun queued hmem => ?_, fun row hmem => ?_, fun event hmem => ?_,
    hblank.ingestion_failures, fun vendor version => ?_⟩, fun j p hj => ?_⟩
  · exact absurd (hblank.queue ▸ hmem) List.not_mem_nil
  · exact absurd (hblank.shots ▸ hmem) List.not_mem_nil
  · exact absurd (hblank.outbox_events ▸ hmem) List.not_mem_nil
  · rw [hblank.metrics]
    exact List.not_mem_nil
  · exact absurd ((hidle j).symm.trans hj) (by simp)

/-- In every run all that is stored and all that is published comes from
requests that were sent and let through, and no worker rejects anything. -/
theorem stored_from_requests
    (hreach : (blankSystem deps maxDepth).Reach (fun _ => StartsFromRequests wd P) c) :
    FromRequests wd P c.shared.toWorld := by
  have hinv : ProvenanceInv wd P c :=
    hreach.invariant (fun _ h₀ => provenanceInv_of_blank h₀.1 h₀.2) fun _ _ _ hinv hstart hexec =>
      step_provenance hinv hstart hexec
  exact hinv.shared.2

end

/-! ### A drive from its request to its row -/

def driveHook : WebhookDeps where
  hmac _ _ := ""
  sha256 := driveSha256
  config _ := none
  issues _ := []

def driveHttp : HttpRequest where
  vendor := .trackpro
  headers _ := none
  rawBody := []
  body := some firstDrive.toJson
  uuid := "4c7f2a44-6a51-4b8e-9f0c-3d6a1f6f2b10"
  ulid _ := firstId
  guardedAt := 1710498606000
  receivedAt := 1710498606000

theorem handle_drive :
    handle driveHook driveHttp = .ok (.enqueuing [.check (driveJob firstId firstDrive)]) := by
  have hparse : (AcceptedBody.trackpro firstDrive).parse driveHook.sha256 driveHttp.ulid
      driveHttp.receivedAt = .ok [driveShot driveSha256 firstId firstDrive 1710498606000] :=
    parseTrackpro_eq driveSha256 (fun _ => firstId) firstDrive 1710498606000
  have hguard : Authentic driveHook driveHttp := by
    rw [Authentic]
    rfl
  have hschema : Accepts driveHttp.vendor driveHttp.body (.trackpro firstDrive) :=
    .trackpro (trackproSchema_toJson firstDrive)
  rw [handle_of_accepted hguard hschema, receive_of_ok hparse, (any_skewed_iff hparse).mpr]
  · rfl
  · intro t ht
    obtain rfl := List.mem_singleton.mp ht
    rw [InWindow]
    decide

def ingestActions : List Action :=
  sendActions ++ [.step 0 (.webhook (.enqueue 0)), .spawn 1 (.worker .idle),
    .step 1 (.worker (.take driveJobId)), .step 1 (.worker (.process 0)),
    .step 1 (.worker (.process 0)), .step 1 (.worker (.process 0)), .step 1 (.worker (.process 0)),
    .step 1 (.worker (.process 0)), .step 1 (.worker .finish)]

def ingested : Config :=
  ((blankSystem driveDeps 10000).execAll emptyQueue ingestActions).getD emptyQueue

theorem drive_stored_from_request :
    ingested.shared.db.shots.length = 1 ∧
      FromRequests driveHook (· = driveHttp) ingested.shared.toWorld := by
  have hstarts : ∀ a ∈ ingestActions, StartsFromRequests driveHook (· = driveHttp) a := by
    simp only [ingestActions, sendActions, List.forall_mem_append, List.forall_mem_cons]
    exact ⟨⟨⟨driveHttp, rfl, handle_drive⟩, trivial, by simp⟩, trivial, rfl, trivial, trivial,
      trivial, trivial, trivial, trivial, trivial, by simp⟩
  exact ⟨by decide +kernel, stored_from_requests ⟨emptyQueue, ingestActions,
    ⟨⟨rfl, rfl, rfl, rfl, rfl⟩, fun _ => rfl⟩,
    System.run_of_isSome (fun a ha _ => hstarts a ha) (by decide +kernel)⟩⟩

end JobQueue

end PureplayIngest
