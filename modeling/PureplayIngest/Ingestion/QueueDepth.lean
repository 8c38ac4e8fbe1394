import Mathlib.Algebra.BigOperators.Group.Finset.Piecewise
import Mathlib.Algebra.Order.BigOperators.Group.Finset
import PureplayIngest.Webhooks.AdmittedBatch
import PureplayIngest.Ingestion.Delivery

/-!
How far the queue can outgrow `MAX_QUEUE_DEPTH`.

The bound is compared with the count of waiting jobs before a job is added, so
calls that have made their check and are still to add can exceed it together:
by one less than there are of them at a time. A job whose delay is over, or
whose worker is gone, goes back among the waiting ones without any check.
-/

namespace PureplayIngest

open Ingestion Lib Webhooks

namespace JobQueue

/-- The call has made its check, and is about to add its job. -/
def isAdding : EnqueueState → Bool
  | .add _ => true
  | _ => false

def adding : QueueCall → ℕ
  | .webhook (.enqueuing calls) => calls.countP isAdding
  | _ => 0

def addingOf (call : Option QueueCall) : ℕ := (call.map adding).getD 0

/-- The calls that are about to add, over some of the requests. -/
def inFlight (threads : ℕ → Option QueueCall) (ids : Finset ℕ) : ℕ :=
  ∑ i ∈ ids, addingOf (threads i)

/-- No more than `K` calls are about to add a job. -/
def AtMostInFlight (K : ℕ) (c : Config) : Prop := ∀ ids, inFlight c.threads ids ≤ K

/-- A job goes back among those that wait. -/
def isRequeue : Action → Bool
  | .env (.promote _) => true
  | .env (.stalled _) => true
  | _ => false

def requeues (as : List Action) : ℕ := as.countP isRequeue

/-- Requests start at their beginning, and never do more than `K` of their
calls stand between check and addition. -/
def ConcurrencyAtMost (deps : Deps) (maxDepth K : ℕ) (c : Config) (a : Action) : Prop :=
  Starts a ∧ ∀ c', (program deps maxDepth).exec c a = some c' → AtMostInFlight K c'

/-- The waiting jobs together with those that are about to be added. -/
def DepthInv (bound : ℕ) (c : Config) : Prop :=
  ∀ ids, c.shared.queue.getWaitingCount + inFlight c.threads ids ≤ bound

section

variable {deps : Deps} {maxDepth K bound i : ℕ} {c c' : Config} {a : Action} {as : List Action}
  {threads : ℕ → Option QueueCall} {p p' : QueueCall} {ids : Finset ℕ} {w w' : QueueWorld}

/-- One thread moves on: its share of the sum is exchanged. -/
theorem inFlight_update (ids : Finset ℕ) (p' : QueueCall) (hi : addingOf (threads i) = adding p) :
    inFlight (Function.update threads i (some p')) ids + (if i ∈ ids then adding p else 0) =
      inFlight threads ids + if i ∈ ids then adding p' else 0 := by
  have hcomp : (fun j => addingOf (Function.update threads i (some p') j)) =
      Function.update (fun j => addingOf (threads j)) i (adding p') := by
    funext j
    by_cases hj : j = i
    · subst j
      rw [Function.update_self, Function.update_self]
      rfl
    · rw [Function.update_of_ne hj, Function.update_of_ne hj]
  rw [inFlight, inFlight, hcomp]
  by_cases hmem : i ∈ ids
  · rw [if_pos hmem, if_pos hmem, Finset.sum_update_of_mem hmem, ← hi,
      ← Finset.sum_sdiff (Finset.singleton_subset_iff.mpr hmem), Finset.sum_singleton]
    omega
  · rw [if_neg hmem, if_neg hmem, Finset.sum_update_of_notMem hmem]

theorem inFlight_insert (hmem : i ∉ ids) :
    inFlight threads (insert i ids) = addingOf (threads i) + inFlight threads ids :=
  Finset.sum_insert hmem

/-- A thread that is not about to add more than before, and a queue that has
not grown by more than it has added. -/
theorem DepthInv.move (hinv : DepthInv bound c) (hi : addingOf (c.threads i) = adding p)
    (hmove : w.queue.getWaitingCount + adding p' ≤ c.shared.queue.getWaitingCount + adding p) :
    DepthInv bound ⟨w, Function.update c.threads i (some p')⟩ := by
  intro ids
  show w.queue.getWaitingCount + inFlight (Function.update c.threads i (some p')) ids ≤ bound
  have hupdate := inFlight_update ids p' hi
  by_cases hmem : i ∈ ids
  · have h := hinv ids
    simp only [if_pos hmem] at hupdate
    omega
  · -- What the thread was about to add counts in the larger set.
    have h := hinv (insert i ids)
    rw [inFlight_insert hmem, hi] at h
    simp only [if_neg hmem] at hupdate
    omega

theorem adding_start (h : Starts (.spawn i p)) : adding p = 0 := by
  cases p with
  | webhook s =>
      obtain ⟨jobs, rfl⟩ | ⟨job, rfl⟩ := h
      · rfl
      · rfl
  | _ => rfl

theorem adding_set {calls : List EnqueueState} {k : ℕ} {call : EnqueueState} (call' : EnqueueState)
    (hcall : calls[k]? = some call) :
    adding (.webhook (.enqueuing (calls.set k call'))) + (if isAdding call = true then 1 else 0) =
      adding (.webhook (.enqueuing calls)) + if isAdding call' = true then 1 else 0 := by
  obtain ⟨hk, rfl⟩ := List.getElem?_eq_some_iff.mp hcall
  rw [adding, adding, List.countP_set hk]
  split
  · rename_i hone
    have hpos : 0 < calls.countP isAdding :=
      List.countP_pos_iff.mpr ⟨_, List.getElem_mem hk, hone⟩
    omega
  · omega

/-- A step of a request, once more by what it changes: it finds room and is
then about to add, or it adds no more than it was about to. -/
theorem WebhookStep.depth {q q' : Queue} {s s' : WebhookState} {label : WebhookLabel}
    (h : WebhookStep maxDepth q s label q' s') :
    q' = q ∧ q.getWaitingCount < maxDepth ∨
      q'.getWaitingCount + adding (.webhook s') ≤ q.getWaitingCount + adding (.webhook s) := by
  cases h with
  | refuse jobs hfull => exact .inr le_rfl
  | enough jobs hroom =>
      have hnone : adding (.webhook (.enqueuing (jobs.map .check))) = 0 :=
        List.countP_eq_zero.mpr fun call hcall => by
          obtain ⟨job, _, rfl⟩ := List.mem_map.mp hcall
          exact of_decide_eq_true rfl
      rw [hnone]
      exact .inr (Nat.le_add_right _ _)
  | @enqueue calls k call call' q' hcall hstep =>
      have hset := adding_set call' hcall
      cases hstep with
      | full job hfull =>
          simp only [isAdding, Bool.false_eq_true, if_false, Nat.add_zero] at hset
          exact .inr (Nat.add_le_add_left hset.le _)
      | room job hroom => exact .inl ⟨rfl, hroom⟩
      | known job hknown =>
          simp only [isAdding, Bool.false_eq_true, if_true, if_false, Nat.add_zero] at hset
          exact .inr (by omega)
      | added job hnew =>
          have hcount : Queue.getWaitingCount (q.add ⟨job, 0, .waiting⟩) = q.getWaitingCount + 1 :=
            Keyed.countP_add (show ¬ q.Known (QueuedJob.id ⟨job, 0, .waiting⟩) from hnew)
          simp only [isAdding, Bool.false_eq_true, if_true, if_false, Nat.add_zero] at hset
          exact .inr (by omega)

theorem EventStep.depth {x : QueueEvent} (h : EventStep w x w') :
    w'.queue.getWaitingCount ≤
      w.queue.getWaitingCount + if isRequeue (.env x) = true then 1 else 0 := by
  cases h with
  | service hevent => exact le_rfl
  | promote hjob hdelayed => exact getWaitingCount_toWaiting_le
  | stalled hjob hactive => exact getWaitingCount_toWaiting_le
  | remove hjob hexpired => exact Keyed.countP_remove_le

theorem DepthInv.mono {bound' : ℕ} (hinv : DepthInv bound c) (h : bound ≤ bound') :
    DepthInv bound' c := fun ids => (hinv ids).trans h

theorem depthInv_step (hinv : DepthInv bound c) (hguard : ConcurrencyAtMost deps maxDepth K c a)
    (hexec : (program deps maxDepth).exec c a = some c') (hbound : maxDepth - 1 + K ≤ bound) :
    DepthInv (bound + if isRequeue a = true then 1 else 0) c' := by
  have hmost := hguard.2 c' hexec
  obtain ⟨i, p, rfl, hi, rfl⟩ | ⟨i, e, p, w', p', rfl, hi, hstep, rfl⟩ |
    ⟨x, w', rfl, hevent, rfl⟩ := Program.exec_cases hexec
  · intro ids
    have hnone : addingOf (c.threads i) = adding p := by
      rw [adding_start hguard.1, hi]
      rfl
    exact (hinv.move (w := c.shared) hnone le_rfl) ids
  · have hp : addingOf (c.threads i) = adding p := by
      rw [hi]
      rfl
    show DepthInv bound _
    cases step_cases hstep with
    | webhook hwebhook =>
        obtain ⟨rfl, hroom⟩ | hmove := hwebhook.depth
        · -- There was room, and there are `K` calls at most to fill it.
          intro ids
          have hK := hmost ids
          show c.shared.queue.getWaitingCount + _ ≤ bound
          omega
        · exact hinv.move hp hmove
    | worker hworker => exact hinv.move hp hworker.getWaitingCount_le
    | service hservice => exact hinv.move hp le_rfl
  · intro ids
    have h := hinv ids
    have hdepth := (event_cases hevent).depth
    show w'.queue.getWaitingCount + inFlight c.threads ids ≤ _
    omega

theorem depthInv_run {init : QueueWorld → Prop}
    (hrun : ((program deps maxDepth).system init).Run (ConcurrencyAtMost deps maxDepth K) c as c')
    (hinv : DepthInv bound c) (hbound : maxDepth - 1 + K ≤ bound) :
    DepthInv (bound + requeues as) c' := by
  induction hrun generalizing bound with
  | nil c => exact hinv
  | @cons c d c' a as hguard hexec tail ih =>
      have h := ih (depthInv_step hinv hguard hexec hbound) (hbound.trans (Nat.le_add_right _ _))
      rw [requeues, List.countP_cons]
      refine h.mono (le_of_eq ?_)
      rw [requeues]
      omega

/-- How long the queue gets. In every run from an empty queue in which no more
than `K` calls at a time stand between their check and their addition, there
are fewer than `MAX_QUEUE_DEPTH + K` jobs waiting, and one more for each time
that a job has gone back among them. -/
theorem waiting_le {c₀ : Config} (hinit : (freshSystem deps maxDepth).init c₀)
    (hrun : (freshSystem deps maxDepth).Run (ConcurrencyAtMost deps maxDepth K) c₀ as c) :
    c.shared.queue.getWaitingCount ≤ maxDepth - 1 + K + requeues as := by
  obtain ⟨hempty, hidle⟩ := hinit
  have hinv : DepthInv (maxDepth - 1 + K) c₀ := by
    intro ids
    have hnone : inFlight c₀.threads ids = 0 :=
      Finset.sum_eq_zero fun i _ => by rw [hidle i]; rfl
    rw [hnone, Queue.getWaitingCount, hempty]
    exact Nat.zero_le _
  exact depthInv_run hrun hinv le_rfl ∅

end

/-! ### Two requests that look at the queue together -/

/-- Both find room for one job, and then both add theirs. -/
def racingActions : List Action :=
  [.spawn 0 (driveRequest firstId),
    .spawn 1 (.webhook (.enqueuing [.check (driveJob secondId secondDrive)])),
    .step 0 (.webhook (.enqueue 0)), .step 1 (.webhook (.enqueue 0)),
    .step 0 (.webhook (.enqueue 0)), .step 1 (.webhook (.enqueue 0))]

def raced : Config := ((freshSystem driveDeps 1).execAll emptyQueue racingActions).getD emptyQueue

theorem atMostInFlight_of_none {c : Config} {n K : ℕ} (hnone : ∀ j, c.threads (j + n) = none)
    (h : inFlight c.threads (Finset.range n) ≤ K) : AtMostInFlight K c := by
  intro ids
  refine (Finset.sum_le_sum_of_ne_zero fun i _ hne => Finset.mem_range.mpr ?_).trans h
  by_contra hle
  obtain ⟨j, rfl⟩ := Nat.exists_eq_add_of_le' (Nat.not_lt.mp hle)
  exact hne (by rw [hnone]; rfl)

theorem racing_inFlight : ∀ k < 7,
    (((freshSystem driveDeps 1).execAll emptyQueue (racingActions.take k)).map
      fun d => decide (inFlight d.threads (Finset.range 2) ≤ 2)) = some true := by
  decide +kernel

/-- The bound is met: one job too many for each call more than one. -/
theorem racing_overshoot :
    raced.shared.queue.getWaitingCount = 2 ∧
      raced.shared.queue.getWaitingCount ≤ 1 - 1 + 2 + requeues racingActions := by
  have hstarts : ∀ a ∈ racingActions, Starts a := by
    simp [racingActions, driveRequest, Starts]
  have hrun : (freshSystem driveDeps 1).Run (ConcurrencyAtMost driveDeps 1 2) emptyQueue
      racingActions raced := by
    refine System.run_of_guards (by decide +kernel) fun k a d ha hd => ?_
    refine ⟨hstarts a (List.mem_of_getElem? ha), fun d' hexec => ?_⟩
    obtain ⟨hk, rfl⟩ := List.getElem?_eq_some_iff.mp ha
    have hd' : (freshSystem driveDeps 1).execAll emptyQueue (racingActions.take (k + 1)) =
        some d' := by
      rw [← List.take_append_getElem hk, System.execAll_append, hd, Option.bind_some,
        System.execAll]
      show ((program driveDeps 1).exec d racingActions[k]).bind _ = _
      rw [hexec]
      rfl
    refine atMostInFlight_of_none (n := 2) (fun j => ?_) ?_
    · refine Program.threads_of_execAll hd' rfl fun p hp => ?_
      have hmem := List.mem_of_mem_take hp
      simp [racingActions] at hmem
    · have hle := racing_inFlight (k + 1) (Nat.succ_lt_succ hk)
      rw [hd', Option.map_some, Option.some_inj, decide_eq_true_eq] at hle
      exact hle
  exact ⟨by decide +kernel, waiting_le ⟨rfl, fun _ => rfl⟩ hrun⟩

end JobQueue

end PureplayIngest
