import PureplayIngest.Ingestion.Retries
import PureplayIngest.Ingestion.ShotIngestionQueue

/-!
The counters `shots_total` and `jobs_failed_total`, over all attempts at a set
of jobs.

`process` counts an outcome before its attempt is over, and `onFailed` runs
for the worker event `failed`, which is emitted for each attempt that throws,
whether or not the job is tried again. So an attempt that throws is counted
by itself, and the retry of one that had inserted its shot finds a duplicate.
-/

namespace PureplayIngest

open Shared.Domain Shared.Kysely Identity Lib

namespace Ingestion

/-- An increment of one of the two counters, with its labels. -/
inductive Increment
  | shotsTotal (vendor outcome parserVersion : String)
  | jobsFailed (vendor : String)
  deriving DecidableEq

def Increment.isShotsTotal : Increment → Bool
  | .shotsTotal _ _ _ => true
  | .jobsFailed _ => false

def Increment.isJobsFailed (increment : Increment) : Bool := !increment.isShotsTotal

def Metric.increment? : Metric → Option Increment
  | .shotsTotal vendor outcome parserVersion =>
      some (.shotsTotal vendor.toString outcome parserVersion)
  | .nearDuplicates _ => none
  | .e2eLag _ _ => none

def Metric.outcome? : Metric → Option String
  | .shotsTotal _ outcome _ => some outcome
  | .nearDuplicates _ => none
  | .e2eLag _ _ => none

/-- `onFailed(job, error)`, as far as it counts. -/
def onFailed (job : Option ShotJob) : List Increment :=
  let vendor := (job.map fun job => job.normalisedShot.vendor.toString).getD "unknown"
  let parserVersion := (job.map fun job => job.normalisedShot.parser_version).getD "unknown"
  [.jobsFailed vendor, .shotsTotal vendor "failed" parserVersion]

/-- What an attempt has done: whether it has inserted the shot, and the
outcomes it has counted. -/
structure AttemptRecord where
  inserted : Bool
  outcomes : List String

def AttemptRecord.after (attempt : AttemptRecord) (s : ProcessState) (metrics : List Metric) :
    AttemptRecord :=
  ⟨attempt.inserted || s.afterInsert, attempt.outcomes ++ metrics.filterMap Metric.outcome?⟩

inductive JobPhase
  | idle
  | running (s : ProcessState) (attempt : AttemptRecord)
  | completed (attempt : AttemptRecord)

def JobPhase.outcomes : JobPhase → List String
  | .idle => []
  | .running _ attempt => attempt.outcomes
  | .completed attempt => attempt.outcomes

/-- A job, and the attempts at it that threw. -/
structure JobRun where
  job : ShotJob
  failures : List AttemptRecord
  phase : JobPhase

namespace JobRun

/-- A worker takes the job, which has attempts left. -/
def start (run : JobRun) : Option JobRun :=
  match run.phase with
  | .idle =>
      if run.failures.length < attempts then
        some { run with phase := .running (process run.job) ⟨false, []⟩ }
      else none
  | _ => none

/-- The next step of the attempt, with the metric updates it makes. -/
def advance (deps : Deps) (stores : Stores) (k : ℕ) (run : JobRun) :
    Option (Stores × List Metric × JobRun) :=
  match run.phase with
  | .running s attempt =>
      (s.step deps ⟨stores, []⟩ k).map fun (w, s') =>
        let attempt := attempt.after s' w.metrics
        (w.toStores, w.metrics,
          { run with phase := if s'.hasReturned then .completed attempt else .running s' attempt })
  | _ => none

/-- The attempt throws: before the next step has an effect, or when it has had
its effect on the stores and the code after it has not run. -/
def throw (deps : Deps) (stores : Stores) (effect : Option ℕ) (run : JobRun) :
    Option (Stores × JobRun) :=
  match run.phase, effect with
  | .running s attempt, none => s.fail.map fun _ =>
      (stores, { run with failures := run.failures ++ [attempt], phase := .idle })
  | .running s attempt, some k => (s.step deps ⟨stores, []⟩ k).map fun (w, s') =>
      (w.toStores,
        { run with failures := run.failures ++ [attempt.after s' []], phase := .idle })
  | _, _ => none

def completed (run : JobRun) : Bool :=
  match run.phase with
  | .completed _ => true
  | _ => false

/-- An attempt has returned, or there are no attempts left. -/
def Settled (run : JobRun) : Prop :=
  run.completed = true ∨ run.phase = .idle ∧ run.failures.length = attempts

/-- The outcomes `process` has counted for the job. -/
def outcomes (run : JobRun) : List String :=
  run.failures.flatMap (·.outcomes) ++ run.phase.outcomes

end JobRun

structure Counted where
  stores : Stores
  jobs : List JobRun
  increments : List Increment

/-- What happens while the jobs are processed: something to the job at a place
in the list, or to the stores, through the rest of the service. -/
inductive CountAction
  | start (i : ℕ)
  | step (i k : ℕ)
  | throw (i : ℕ) (effect : Option ℕ)
  | stores (stores : Stores)

def CountAction.throws : CountAction → Bool
  | .throw _ _ => true
  | _ => false

/-- Any number of jobs, processed concurrently. -/
def counting (deps : Deps) : System Counted CountAction where
  init c := c.increments = [] ∧ ∀ run ∈ c.jobs, run.failures = [] ∧ run.phase = .idle
  exec c a :=
    match a with
    | .start i => (c.jobs[i]?.bind JobRun.start).map fun run =>
        { c with jobs := c.jobs.set i run }
    | .step i k => (c.jobs[i]?.bind (·.advance deps c.stores k)).map fun (stores, metrics, run) =>
        ⟨stores, c.jobs.set i run, c.increments ++ metrics.filterMap Metric.increment?⟩
    | .throw i effect => (c.jobs[i]?.bind (·.throw deps c.stores effect)).map fun (stores, run) =>
        ⟨stores, c.jobs.set i run, c.increments ++ onFailed (some run.job)⟩
    | .stores stores => some { c with stores := stores }

/-- The counters tell how many jobs there were and how many were lost, and a
retry does not change how a shot is counted. -/
structure Balanced (c : Counted) : Prop where
  shots_total : c.increments.countP Increment.isShotsTotal = c.jobs.length
  jobs_failed :
    c.increments.countP Increment.isJobsFailed = c.jobs.countP fun run => !run.completed
  confirmed : ∀ run ∈ c.jobs, (∃ attempt ∈ run.failures, attempt.inserted = true) →
    run.completed = true →
      (∃ outcome ∈ run.outcomes, outcome = "accepted" ∨ outcome = "duplicate_near") ∧
        "duplicate_exact" ∉ run.outcomes

/-! ### Sums over the jobs -/

section Sums

variable {α : Type} {f : α → ℕ} {l : List α}

theorem sum_map_set {i : ℕ} {a b : α} (h : l[i]? = some a) :
    ((l.set i b).map f).sum + f a = (l.map f).sum + f b := by
  induction l generalizing i with
  | nil => exact absurd h (by simp)
  | cons x l ih =>
      cases i with
      | zero =>
          obtain rfl : x = a := Option.some.inj h
          simp only [List.set_cons_zero, List.map_cons, List.sum_cons]
          omega
      | succ i =>
          have htail := ih (i := i) h
          simp only [List.set_cons_succ, List.map_cons, List.sum_cons]
          omega

theorem length_le_sum (h : ∀ a ∈ l, 1 ≤ f a) : l.length ≤ (l.map f).sum := by
  induction l with
  | nil => exact Nat.le_refl _
  | cons x l ih =>
      have hhead := h x List.mem_cons_self
      have htail := ih fun a ha => h a (List.mem_cons_of_mem _ ha)
      rw [List.length_cons, List.map_cons, List.sum_cons]
      omega

/-- Numbers that are not zero add up to how many they are only when each is one. -/
theorem eq_one_of_sum (h : ∀ a ∈ l, 1 ≤ f a) (hsum : (l.map f).sum = l.length) :
    ∀ a ∈ l, f a = 1 := by
  induction l with
  | nil => exact fun a ha => absurd ha List.not_mem_nil
  | cons x l ih =>
      have hhead := h x List.mem_cons_self
      have htail : ∀ a ∈ l, 1 ≤ f a := fun a ha => h a (List.mem_cons_of_mem _ ha)
      have hle := length_le_sum htail
      rw [List.length_cons, List.map_cons, List.sum_cons] at hsum
      intro a ha
      rcases List.mem_cons.mp ha with rfl | ha
      · omega
      · exact ih htail (by omega) a ha

end Sums

/-! ### What an attempt counts -/

section Steps

variable {deps : Deps} {stores : Stores} {k : ℕ} {run run' : JobRun}

/-- The outcomes an attempt has counted when it is here. -/
def ProcessState.counted : ProcessState → ℕ
  | .patchOutbox _ _ _ => 1
  | .returned _ => 1
  | _ => 0

theorem counted_process (job : ShotJob) : (process job).counted = 0 := by
  rw [process]
  split <;> rfl

theorem step_counted {w' : World} {s s' : ProcessState}
    (h : s.step deps ⟨stores, []⟩ k = some (w', s')) :
    s'.counted = s.counted + (w'.metrics.filterMap Metric.outcome?).length := by
  cases ProcessState.step_cases h with
  | @resolving job call call' stores' hcall => cases call' <;> rfl
  | _ => rfl

theorem countP_increments (metrics : List Metric) :
    (metrics.filterMap Metric.increment?).countP Increment.isShotsTotal =
        (metrics.filterMap Metric.outcome?).length ∧
      (metrics.filterMap Metric.increment?).countP Increment.isJobsFailed = 0 := by
  induction metrics with
  | nil => exact ⟨rfl, rfl⟩
  | cons metric metrics ih =>
      cases metric with
      | shotsTotal vendor outcome parserVersion =>
          refine ⟨?_, ih.2⟩
          show List.countP _ (Increment.shotsTotal _ _ _ :: metrics.filterMap _) =
            (outcome :: metrics.filterMap _).length
          rw [List.countP_cons, ih.1]
          rfl
      | nearDuplicates vendor => exact ih
      | e2eLag vendor lagMs => exact ih

namespace JobRun

/-- The increments of `shots_total` for a job: the outcomes its attempts have
counted, and one more for each attempt that threw. -/
def tally (run : JobRun) : ℕ :=
  (run.failures.map fun attempt => attempt.outcomes.length + 1).sum + run.phase.outcomes.length

/-- An attempt that is running has counted what its state says, and one that
has returned has counted one outcome. -/
def Valid (run : JobRun) : Prop :=
  match run.phase with
  | .idle => True
  | .running s attempt => attempt.outcomes.length = s.counted
  | .completed attempt => attempt.outcomes.length = 1

end JobRun

/-- One of the jobs does something, and these are the increments. -/
inductive JobStep (deps : Deps) (stores : Stores) (run : JobRun) :
    Bool → List Increment → JobRun → Prop
  | start (hidle : run.phase = .idle) :
      JobStep deps stores run false []
        { run with phase := .running (process run.job) ⟨false, []⟩ }
  | advance {s s' : ProcessState} {attempt : AttemptRecord} {k : ℕ} {w : World}
      (hrunning : run.phase = .running s attempt)
      (hstep : s.step deps ⟨stores, []⟩ k = some (w, s')) :
      JobStep deps stores run false (w.metrics.filterMap Metric.increment?)
        { run with
          phase := if s'.hasReturned then .completed (attempt.after s' w.metrics)
            else .running s' (attempt.after s' w.metrics) }
  | throw {s : ProcessState} {attempt attempt' : AttemptRecord}
      (hrunning : run.phase = .running s attempt) (hsame : attempt'.outcomes = attempt.outcomes) :
      JobStep deps stores run true (onFailed (some run.job))
        { run with failures := run.failures ++ [attempt'], phase := .idle }

theorem exec_cases {c c' : Counted} {a : CountAction} (h : (counting deps).exec c a = some c') :
    (∃ i run run' inc, c.jobs[i]? = some run ∧ JobStep deps c.stores run a.throws inc run' ∧
        c'.jobs = c.jobs.set i run' ∧ c'.increments = c.increments ++ inc) ∨
      a.throws = false ∧ c'.jobs = c.jobs ∧ c'.increments = c.increments := by
  cases a with
  | start i =>
      obtain ⟨run', hbind, rfl⟩ := Option.map_eq_some_iff.mp h
      obtain ⟨run, hrun, hstart⟩ := Option.bind_eq_some_iff.mp hbind
      rw [JobRun.start] at hstart
      split at hstart
      · rename_i hidle
        split at hstart
        · obtain rfl := Option.some.inj hstart
          exact .inl ⟨i, run, _, [], hrun, .start hidle, rfl, (List.append_nil _).symm⟩
        · exact absurd hstart (by simp)
      · exact absurd hstart (by simp)
  | step i k =>
      obtain ⟨⟨stores, metrics, run'⟩, hbind, rfl⟩ := Option.map_eq_some_iff.mp h
      obtain ⟨run, hrun, hadvance⟩ := Option.bind_eq_some_iff.mp hbind
      rw [JobRun.advance] at hadvance
      split at hadvance
      · rename_i s attempt hrunning
        obtain ⟨⟨w, s'⟩, hstep, heq⟩ := Option.map_eq_some_iff.mp hadvance
        obtain ⟨rfl, rfl, rfl⟩ : w.toStores = stores ∧ w.metrics = metrics ∧ _ = run' := by
          simpa only [Prod.mk.injEq] using heq
        exact .inl ⟨i, run, _, _, hrun, .advance hrunning hstep, rfl, rfl⟩
      · exact absurd hadvance (by simp)
  | throw i effect =>
      obtain ⟨⟨stores, run'⟩, hbind, rfl⟩ := Option.map_eq_some_iff.mp h
      obtain ⟨run, hrun, hthrow⟩ := Option.bind_eq_some_iff.mp hbind
      rw [JobRun.throw.eq_def] at hthrow
      split at hthrow
      · rename_i s attempt hrunning
        obtain ⟨_, _, heq⟩ := Option.map_eq_some_iff.mp hthrow
        obtain ⟨rfl, rfl⟩ := Prod.mk.inj heq
        exact .inl ⟨i, run, _, _, hrun, .throw hrunning rfl, rfl, rfl⟩
      · rename_i s attempt k hrunning
        obtain ⟨_, _, heq⟩ := Option.map_eq_some_iff.mp hthrow
        obtain ⟨rfl, rfl⟩ := Prod.mk.inj heq
        exact .inl ⟨i, run, _, _, hrun, .throw hrunning (List.append_nil _), rfl, rfl⟩
      · exact absurd hthrow (by simp)
  | stores stores =>
      obtain rfl := Option.some.inj h
      exact .inr ⟨rfl, rfl, rfl⟩

/-- What a step counts is what is counted for its job. -/
theorem JobStep.counts {threw : Bool} {inc : List Increment}
    (h : JobStep deps stores run threw inc run') (hvalid : run.Valid) :
    run'.Valid ∧ run'.tally = run.tally + inc.countP Increment.isShotsTotal ∧
      inc.countP Increment.isJobsFailed = (if threw then 1 else 0) ∧
      run'.failures.length = run.failures.length + if threw then 1 else 0 := by
  cases h with
  | start hidle =>
      refine ⟨(counted_process run.job).symm, ?_, rfl, rfl⟩
      simp only [JobRun.tally, hidle, JobPhase.outcomes, List.countP_nil, Nat.add_zero]
  | @advance s s' attempt k w hrunning hstep =>
      obtain ⟨hshots, hfailed⟩ := countP_increments w.metrics
      have hcounted := step_counted hstep
      rw [JobRun.Valid, hrunning] at hvalid
      -- The attempt has counted what its state says, before the step and after it.
      have houtcomes : (attempt.after s' w.metrics).outcomes.length = s'.counted := by
        rw [AttemptRecord.after, List.length_append, hvalid, hcounted]
      refine ⟨?_, ?_, hfailed, rfl⟩
      · rw [JobRun.Valid]
        cases hreturned : s'.hasReturned with
        | false => exact houtcomes
        | true =>
            obtain ⟨job, rfl⟩ : ∃ job, s' = .returned job := by
              cases s' with
              | returned job => exact ⟨job, rfl⟩
              | _ => exact absurd hreturned (by simp [ProcessState.hasReturned])
            exact houtcomes
      · have hphase : (if s'.hasReturned then JobPhase.completed (attempt.after s' w.metrics)
            else .running s' (attempt.after s' w.metrics)).outcomes.length = s'.counted := by
          split <;> exact houtcomes
        rw [JobRun.tally, JobRun.tally, hphase, hrunning, hshots, JobPhase.outcomes, hvalid,
          hcounted, Nat.add_assoc]
  | @throw s attempt attempt' hrunning hsame =>
      -- What the attempt had counted moves to the failures and stays counted.
      refine ⟨trivial, ?_, rfl, by simp⟩
      simp only [JobRun.tally, hrunning, JobPhase.outcomes, List.map_append, List.sum_append,
        List.map_cons, List.map_nil, List.sum_cons, List.sum_nil, List.length_nil, hsame]
      show _ = _ + 1
      omega

end Steps

/-! ### What all of them count -/

/-- The counters are the sums of what the jobs have counted. -/
structure CountInv (c : Counted) : Prop where
  shots_total : c.increments.countP Increment.isShotsTotal = (c.jobs.map JobRun.tally).sum
  jobs_failed :
    c.increments.countP Increment.isJobsFailed = (c.jobs.map (·.failures.length)).sum
  valid : ∀ run ∈ c.jobs, run.Valid

section Run

variable {deps : Deps} {c c' : Counted} {a : CountAction} {as : List CountAction}

theorem CountInv.step (hinv : CountInv c) (h : (counting deps).exec c a = some c') :
    CountInv c' ∧ c'.increments.countP Increment.isJobsFailed =
      c.increments.countP Increment.isJobsFailed + if a.throws then 1 else 0 := by
  obtain ⟨i, run, run', inc, hrun, hstep, hjobs, hincrements⟩ | ⟨hthrows, hjobs, hincrements⟩ :=
    exec_cases h
  · obtain ⟨hvalid, htally, hfailed, hfailures⟩ :=
      hstep.counts (hinv.valid run (List.mem_of_getElem? hrun))
    have hshots := sum_map_set (f := JobRun.tally) (b := run') hrun
    have hfails := sum_map_set (f := fun run => run.failures.length) (b := run') hrun
    have hold := hinv.shots_total
    have hold' := hinv.jobs_failed
    refine ⟨⟨?_, ?_, fun other hother => ?_⟩, ?_⟩
    · rw [hincrements, hjobs, List.countP_append]
      omega
    · rw [hincrements, hjobs, List.countP_append]
      omega
    · rw [hjobs] at hother
      rcases List.mem_or_eq_of_mem_set hother with hother | rfl
      · exact hinv.valid other hother
      · exact hvalid
    · rw [hincrements, List.countP_append, hfailed]
  · obtain ⟨stores, jobs, increments⟩ := c'
    obtain rfl : jobs = c.jobs := hjobs
    obtain rfl : increments = c.increments := hincrements
    rw [hthrows]
    exact ⟨⟨hinv.shots_total, hinv.jobs_failed, hinv.valid⟩, rfl⟩

theorem CountInv.run (hinv : CountInv c) (h : (counting deps).Run System.free c as c') :
    CountInv c' ∧ c'.increments.countP Increment.isJobsFailed =
      c.increments.countP Increment.isJobsFailed + as.countP CountAction.throws := by
  induction h with
  | nil c => exact ⟨hinv, rfl⟩
  | cons _ hexec tail ih =>
      obtain ⟨hinv', hstep⟩ := hinv.step hexec
      obtain ⟨hinv'', htail⟩ := ih hinv'
      refine ⟨hinv'', ?_⟩
      rw [htail, hstep, List.countP_cons]
      omega

theorem countInv_init (h : (counting deps).init c) : CountInv c where
  shots_total := by
    rw [h.1]
    refine (List.sum_eq_zero fun n hn => ?_).symm
    obtain ⟨run, hrun, rfl⟩ := List.mem_map.mp hn
    obtain ⟨hfailures, hidle⟩ := h.2 run hrun
    rw [JobRun.tally, hfailures, hidle]
    rfl
  jobs_failed := by
    rw [h.1]
    refine (List.sum_eq_zero fun n hn => ?_).symm
    obtain ⟨run, hrun, rfl⟩ := List.mem_map.mp hn
    rw [(h.2 run hrun).1]
    rfl
  valid run hrun := by
    rw [JobRun.Valid, (h.2 run hrun).2]
    trivial

end Run

/-- A job that is settled is counted at least once, and just once only when no attempt threw. -/
theorem JobRun.Settled.tally {run : JobRun} (h : run.Settled) (hvalid : run.Valid) :
    1 ≤ run.tally ∧ (run.tally = 1 → run.failures = []) ∧
      (run.failures = [] → run.tally = 1 ∧ run.completed = true) := by
  have hle : run.failures.length ≤
      (run.failures.map fun attempt => attempt.outcomes.length + 1).sum :=
    length_le_sum fun attempt _ => Nat.le_add_left 1 _
  rcases h with hcompleted | ⟨_, hlength⟩
  · have hone : run.phase.outcomes.length = 1 := by
      rw [JobRun.completed] at hcompleted
      split at hcompleted
      · rename_i attempt hphase
        rw [JobRun.Valid, hphase] at hvalid
        rw [hphase]
        exact hvalid
      · exact absurd hcompleted (by simp)
    rw [JobRun.tally, hone]
    refine ⟨Nat.le_add_left 1 _, fun hsum => List.eq_nil_of_length_eq_zero (by omega), ?_⟩
    intro hnil
    rw [hnil]
    exact ⟨rfl, hcompleted⟩
  · -- Every attempt threw, so the job is counted five times at least.
    rw [attempts] at hlength
    rw [JobRun.tally]
    refine ⟨by omega, by omega, fun hnil => ?_⟩
    rw [hnil] at hlength
    exact absurd hlength (by simp)

/-- Once all jobs are settled the counters balance exactly when no attempt threw. -/
theorem counters_balance_iff {deps : Deps} {c c' : Counted} {as : List CountAction}
    (hinit : (counting deps).init c) (hrun : (counting deps).Run System.free c as c')
    (hsettled : ∀ run ∈ c'.jobs, run.Settled) :
    Balanced c' ↔ ∀ i effect, CountAction.throw i effect ∉ as := by
  obtain ⟨hinv, hfailed⟩ := (countInv_init hinit).run hrun
  rw [hinit.1, List.countP_nil, Nat.zero_add, hinv.jobs_failed] at hfailed
  have htally : ∀ run ∈ c'.jobs, 1 ≤ run.tally := fun run hrun =>
    ((hsettled run hrun).tally (hinv.valid run hrun)).1
  constructor
  · intro hbalanced i effect hthrow
    have hones := eq_one_of_sum htally (hinv.shots_total.symm.trans hbalanced.shots_total)
    -- Every settled job has counted something, so a total of one each leaves nothing for a retry.
    have hnone : (c'.jobs.map (·.failures.length)).sum = 0 := by
      refine List.sum_eq_zero fun n hn => ?_
      obtain ⟨run, hrun, rfl⟩ := List.mem_map.mp hn
      rw [((hsettled run hrun).tally (hinv.valid run hrun)).2.1 (hones run hrun)]
      rfl
    rw [hnone] at hfailed
    exact List.countP_eq_zero.mp hfailed.symm _ hthrow rfl
  · intro hnothrow
    have hnone : as.countP CountAction.throws = 0 := by
      refine List.countP_eq_zero.mpr fun a ha hthrows => ?_
      cases a with
      | throw i effect => exact hnothrow i effect ha
      | _ => exact absurd hthrows (by simp [CountAction.throws])
    rw [hnone] at hfailed
    -- Without a throw no attempt has failed, and each job has been through one.
    have hfailures : ∀ run ∈ c'.jobs, run.failures = [] := fun run hrun =>
      List.eq_nil_of_length_eq_zero
        (List.sum_eq_zero_iff_forall_eq_nat.mp hfailed _ (List.mem_map_of_mem hrun))
    have hsettled' : ∀ run ∈ c'.jobs, run.tally = 1 ∧ run.completed = true := fun run hrun =>
      ((hsettled run hrun).tally (hinv.valid run hrun)).2.2 (hfailures run hrun)
    refine ⟨?_, ?_, fun run hrun ⟨attempt, hattempt, _⟩ => ?_⟩
    · rw [hinv.shots_total, List.map_congr_left fun run hrun => (hsettled' run hrun).1]
      simp
    · rw [hinv.jobs_failed, hfailed]
      refine (List.countP_eq_zero.mpr fun run hrun => ?_).symm
      rw [(hsettled' run hrun).2]
      simp
    · rw [hfailures run hrun] at hattempt
      exact absurd hattempt List.not_mem_nil

/-! ### One drive, processed with and without an attempt that throws -/

def oneJob : Counted where
  stores := Service.freshWorld.toStores
  jobs := [⟨secondJob, [], .idle⟩]
  increments := []

/-- An attempt up to its insert. -/
def attemptInsert : List CountAction :=
  [.start 0, .step 0 0, .step 0 0, .step 0 0, .step 0 0]

/-- The attempt that has inserted the shot throws, and the next one finds it. -/
def retryAfterInsert : List CountAction :=
  attemptInsert ++ [.throw 0 none, .start 0, .step 0 0, .step 0 0]

def counted (actions : List CountAction) : Counted :=
  ((counting driveDeps).execAll oneJob actions).getD oneJob

theorem oneJob_init : (counting driveDeps).init oneJob := by
  simp [counting, oneJob]

/-- One job is counted twice, as failed and as a duplicate, though it was not lost and is none. -/
theorem counters_unbalanced :
    ¬ ∀ (deps : Deps) (c c' : Counted) (as : List CountAction), (counting deps).init c →
      (counting deps).Run System.free c as c' → (∀ run ∈ c'.jobs, run.Settled) → Balanced c' := by
  intro h
  obtain ⟨hsome, hcompleted, htotal⟩ :
      ((counting driveDeps).execAll oneJob retryAfterInsert).isSome = true ∧
      (∀ run ∈ (counted retryAfterInsert).jobs, run.completed = true) ∧
      (counted retryAfterInsert).increments.countP Increment.isShotsTotal ≠
        (counted retryAfterInsert).jobs.length := by
    decide +kernel
  exact htotal (h driveDeps oneJob (counted retryAfterInsert) retryAfterInsert oneJob_init
    (System.run_of_isSome (fun _ _ _ => trivial) hsome)
    fun run hrun => .inl (hcompleted run hrun)).shots_total

/-- An attempt that returns is counted as accepted. -/
theorem counters_balance_iff_accepted :
    Balanced (counted (attemptInsert ++ [.step 0 0])) := by
  obtain ⟨hsome, hcompleted⟩ :
      ((counting driveDeps).execAll oneJob (attemptInsert ++ [.step 0 0])).isSome = true ∧
      ∀ run ∈ (counted (attemptInsert ++ [.step 0 0])).jobs, run.completed = true := by
    decide +kernel
  refine (counters_balance_iff oneJob_init (System.run_of_isSome (fun _ _ _ => trivial) hsome)
    fun run hrun => .inl (hcompleted run hrun)).mpr ?_
  simp [attemptInsert]

end Ingestion

end PureplayIngest
