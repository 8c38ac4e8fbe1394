import PureplayIngest.Ingestion.AppendOnly

/-!
Whether the events that are emitted agree with the rows they are about.

The event of a shot is written with the shot, and names no origin. When the
shot is flagged afterwards its event is to be patched by a statement of its own,
but the statement has nothing to set and the database refuses it. So an event
goes out as it was written, whenever it is emitted, and it agrees with its row
exactly when the shot is not flagged. A shot stays so when the origin query of
its attempt has nothing to find.
-/

namespace PureplayIngest.Outbox

open Shared.Domain Shared.Kysely Identity Ingestion Lib Webhooks

/-- The shot of the event is stored, and flagged as the event says. -/
def Agrees (db : Database) (event : OutboxEvent) : Prop :=
  (∃ row ∈ db.shots, row.canonical_shot_id = event.payload.canonical_shot_id) ∧
    ∀ row ∈ db.shots, row.canonical_shot_id = event.payload.canonical_shot_id →
      event.payload.duplicate_of = row.duplicate_of

/-- Some cycle has emitted the event. -/
def Emitted (c : Config) (event : OutboxEvent) : Prop :=
  ∃ i s threw, c.threads i = some (.publisher s) ∧ (event, threw) ∈ s.cycle.emissions

/-- The shot is a duplicate of no other. -/
def Unflagged (db : Database) (id : String) : Prop := ∀ origin, ¬ Links db id origin

/-- The event is of a stored shot and names no origin. -/
def AsWritten (db : Database) (event : OutboxEvent) : Prop :=
  event.payload.duplicate_of = none ∧
    ∃ row ∈ db.shots, row.canonical_shot_id = event.payload.canonical_shot_id

/-- The runs from tables whose events are as the transaction of a shot writes them. -/
def writtenSystem (deps : Deps) : System Config Action :=
  (program deps).system fun w =>
    (system deps).init ⟨w, fun _ => none⟩ ∧
      ∀ event ∈ w.db.outbox_events, event.event_type = "shot.persisted" → AsWritten w.db event

/-- When an attempt makes its origin query for the shot, no row is stored that
the query can find. -/
def NothingToFind (sha256 : String → String) (id : String) (c : Config) : Action → Prop
  | .step i (.service (.ok _)) => ∀ call shot, c.threads i = some (.service call) →
      call.looking = some shot → shot.canonical_shot_id = id →
      ∀ row ∈ c.shared.db.shots,
        ¬ CanFind sha256 shot.toShotWithoutPayload row.toShotWithoutPayload
  | _ => True

/-- The condition under which what is emitted for the shot agrees with its row,
as a guard on the actions. -/
def AgreementGuard (deps : Deps) (id : String) (c : Config) (a : Action) : Prop :=
  StartsParsed deps.sha256 a ∧ NothingToFind deps.sha256 id c a

theorem agrees_iff {db : Database} {event : OutboxEvent} (h : AsWritten db event) :
    Agrees db event ↔ Unflagged db event.payload.canonical_shot_id := by
  obtain ⟨hnone, hstored⟩ := h
  constructor
  · rintro ⟨_, hagree⟩ origin ⟨row, hrow, hid, hdup⟩
    exact absurd (hnone.symm.trans ((hagree row hrow hid).trans hdup)) (by simp)
  · intro hunflagged
    refine ⟨hstored, fun row hrow hid => ?_⟩
    rw [hnone, eq_comm, Option.eq_none_iff_forall_ne_some]
    exact fun origin hdup => hunflagged origin ⟨row, hrow, hid, hdup⟩

/-! ### Steps of a call -/

section

variable {deps : Deps} {c : Config} {i : ℕ} {call call' : Call} {label : Label} {world : World}

theorem AsWritten.step {event : OutboxEvent} (h : AsWritten c.shared.db event)
    (hstep : Service.step deps c.shared.toWorld call label = some (world, call')) :
    AsWritten world.db event :=
  h.imp_right (step_shotsEffect hstep).stored

/-- The events of the outbox stay as they were written. -/
theorem written_afterCall (hpending : PendingUnflagged c)
    (hwritten : ∀ event ∈ c.shared.db.outbox_events,
      event.event_type = "shot.persisted" → AsWritten c.shared.db event)
    (hi : c.threads i = some (.service call))
    (hstep : Service.step deps c.shared.toWorld call label = some (world, call')) :
    ∀ event ∈ world.db.outbox_events,
      event.event_type = "shot.persisted" → AsWritten world.db event := by
  intro event hevent htype
  have hold (hmem : event ∈ c.shared.db.outbox_events) : AsWritten world.db event :=
    (hwritten event hmem htype).step hstep
  cases step_tablesEffect hstep with
  | frame hsame => exact hold (hsame.outbox_events ▸ hevent)
  | @insert job shot haccepted hkey hid hdb =>
      rw [hdb] at hevent
      obtain hevent | hevent := List.mem_append.mp hevent
      · exact hold hevent
      · obtain rfl := List.mem_singleton.mp hevent
        refine ⟨hpending i _ shot hi rfl, shot, ?_, rfl⟩
        rw [hdb]
        exact List.mem_append_right _ (List.mem_singleton_self shot)
  | flag job shot id origin hdb =>
      rw [hdb] at hevent
      exact hold hevent
  | backfill pair user row hdb =>
      rw [hdb] at hevent
      exact hold hevent

theorem emitted_afterCall {event : OutboxEvent} (h : Emitted (afterCall c i world call') event) :
    Emitted c event := by
  obtain ⟨j, s, threw, hj, hmem⟩ := h
  obtain ⟨_, heq⟩ | ⟨_, hj⟩ := Program.update_cases hj
  · exact absurd heq (by simp)
  · exact ⟨j, s, threw, hj, hmem⟩

end

/-! ### Cycles -/

section

variable {c : Config} {i : ℕ} {s s' : PublisherState} {label : PublisherLabel} {w' : OutboxWorld}

/-- What a cycle has emitted after a step it had emitted before, or it is the
row of this round. -/
theorem PublisherStep.emissions (h : PublisherStep i c.shared s label w' s')
    {p : OutboxEvent × Bool} (hp : p ∈ s'.cycle.emissions) :
    p ∈ s.cycle.emissions ∨ ∃ cycle rows, s = .emit cycle (p.1 :: rows) ∧
      p.1.event_type = "shot.persisted" := by
  cases h with
  | none hnone => exact absurd hp List.not_mem_nil
  | claim hbatch hne => exact absurd hp List.not_mem_nil
  | emit cycle row rows threw =>
      rw [(afterEmit_cycle (cycle.publish row threw) rows).1, Cycle.publish] at hp
      split at hp
      · rename_i htype
        obtain hp | hp := List.mem_append.mp hp
        · exact .inl hp
        · obtain rfl := List.mem_singleton.mp hp
          exact .inr ⟨cycle, rows, rfl, htype⟩
      · exact .inl hp
  | delete cycle => exact .inl hp
  | commit cycle => exact .inl hp
  | abortSelect => exact absurd hp List.not_mem_nil
  | abort hopen => exact .inl hp

/-- The row a cycle is to emit next is in the table. -/
theorem mem_of_emit (hinv : OutboxInv c) {cycle : Cycle} {row : OutboxEvent}
    {rows : List OutboxEvent} (hi : c.threads i = some (.publisher (.emit cycle (row :: rows)))) :
    row ∈ c.shared.db.outbox_events := by
  have hown := hinv.threads i _ hi
  obtain ⟨done, hdone, _⟩ := hown.recorded.done
  refine (hown.claimed trivial row ?_).1
  rw [hdone]
  exact List.mem_append_right _ List.mem_cons_self

/-- What has been emitted after a cycle's step had been before, or was in the table. -/
theorem emitted_afterCycleStep (hinv : OutboxInv c) (hi : c.threads i = some (.publisher s))
    (h : PublisherStep i c.shared s label w' s') {event : OutboxEvent}
    (hemitted : Emitted (afterCycleStep c i w' s') event) :
    Emitted c event ∨
      event ∈ c.shared.db.outbox_events ∧ event.event_type = "shot.persisted" := by
  obtain ⟨j, t, threw, hj, hmem⟩ := hemitted
  obtain ⟨_, heq⟩ | ⟨_, hj⟩ := Program.update_cases hj
  · obtain rfl := OutboxCall.publisher.inj heq
    obtain hbefore | ⟨cycle, rows, rfl, htype⟩ := h.emissions hmem
    · exact .inl ⟨i, s, threw, hi, hbefore⟩
    · exact .inr ⟨mem_of_emit hinv hi, htype⟩
  · exact .inl ⟨j, t, threw, hj, hmem⟩

end

/-! ### Events stay as they were written -/

/-- What holds in every state reached. -/
structure WrittenInv (c : Config) : Prop where
  base : OutboxInv c
  pending : PendingUnflagged c
  waiting : ∀ event ∈ c.shared.db.outbox_events,
    event.event_type = "shot.persisted" → AsWritten c.shared.db event
  emitted : ∀ event, Emitted c event → AsWritten c.shared.db event

theorem WrittenInv.spawn {deps : Deps} {c : Config} {i : ℕ} {p : OutboxCall}
    (hinv : WrittenInv c) (hstart : StartsParsed deps.sha256 (.spawn i p))
    (hbase : OutboxInv { c with threads := Function.update c.threads i (some p) }) :
    WrittenInv { c with threads := Function.update c.threads i (some p) } := by
  refine ⟨hbase, hinv.pending.spawn hstart, hinv.waiting,
    fun event hemitted => hinv.emitted event ?_⟩
  obtain ⟨j, s, threw, hj, hmem⟩ := hemitted
  obtain ⟨_, rfl⟩ | ⟨_, hj⟩ := Program.update_cases hj
  · obtain rfl : s = .select := hstart
    exact absurd hmem List.not_mem_nil
  · exact ⟨j, s, threw, hj, hmem⟩

theorem WrittenInv.step {deps : Deps} {c c' : Config} {a : Action} (hinv : WrittenInv c)
    (hstart : StartsParsed deps.sha256 a) (hexec : (program deps).exec c a = some c') :
    WrittenInv c' := by
  have hbase : OutboxInv c' := step_inv hinv.base hstart.starts hexec
  obtain ⟨i, p, rfl, hi, rfl⟩ | ⟨i, e, p, w', q, rfl, hi, hstep, rfl⟩ | ⟨x, w', rfl, hevent, rfl⟩ :=
    Program.exec_cases hexec
  · exact hinv.spawn hstart hbase
  · cases step_cases hstep with
    | service hservice =>
        exact ⟨hbase, hinv.pending.afterCall hi hservice,
          written_afterCall hinv.pending hinv.waiting hi hservice,
          fun event hemitted => (hinv.emitted event (emitted_afterCall hemitted)).step hservice⟩
    | publisher hpublisher =>
        obtain ⟨hshots, hevents⟩ := hpublisher.tables
        refine ⟨hbase, fun j call shot hj => hinv.pending j call shot (afterCycleStep_cases hj),
          fun event hevent htype => ?_, fun event hemitted => ?_⟩
        · rw [AsWritten, hshots]
          exact hinv.waiting event (hevents event hevent) htype
        · rw [AsWritten, hshots]
          obtain hbefore | ⟨hmem, htype⟩ := emitted_afterCycleStep hinv.base hi hpublisher hemitted
          · exact hinv.emitted event hbefore
          · exact hinv.waiting event hmem htype
  · obtain ⟨world, hworld, rfl⟩ := Option.map_eq_some_iff.mp hevent
    have hsame := event_same hworld
    refine ⟨hbase, hinv.pending, fun event hmem htype => ?_, fun event hemitted => ?_⟩
    · rw [AsWritten, hsame.shots]
      exact hinv.waiting event (hsame.outbox_events ▸ hmem) htype
    · rw [AsWritten, hsame.shots]
      exact hinv.emitted event hemitted

theorem writtenInv_of_reach {deps : Deps} {c : Config}
    (hreach : (writtenSystem deps).Reach (fun _ => StartsParsed deps.sha256) c) :
    WrittenInv c := by
  refine hreach.invariant (fun c₀ h₀ => ?_) fun c a c' hinv hguard hexec => hinv.step hguard hexec
  obtain ⟨⟨hinit, hwritten⟩, hidle⟩ := h₀
  have hnone {i : ℕ} {p : OutboxCall} : c₀.threads i ≠ some p := fun hi =>
    absurd ((hidle i).symm.trans hi) (by simp)
  have hstart : (system deps).Reach (fun _ => Starts) c₀ := .init ⟨hinit.1, hidle⟩
  exact ⟨reach_inv hstart, fun i call shot hi => absurd hi hnone, hwritten,
    fun event ⟨i, s, threw, hi, _⟩ => absurd hi hnone⟩

/-! ### A shot that is not flagged -/

/-- The shot is not flagged, and no attempt is about to flag it. -/
structure UnflaggedInv (id : String) (c : Config) : Prop where
  pending : PendingUnflagged c
  rows : Unflagged c.shared.db id
  chosen : ∀ i call origin, c.threads i = some (.service call) → call.chosen ≠ some (id, origin)

theorem UnflaggedInv.step {deps : Deps} {c c' : Config} {a : Action} {id : String}
    (hinv : UnflaggedInv id c) (hguard : AgreementGuard deps id c a)
    (hexec : (program deps).exec c a = some c') : UnflaggedInv id c' := by
  obtain ⟨hstart, hnothing⟩ := hguard
  obtain ⟨i, p, rfl, hi, rfl⟩ | ⟨i, e, p, w', q, rfl, hi, hstep, rfl⟩ | ⟨x, w', rfl, hevent, rfl⟩ :=
    Program.exec_cases hexec
  · refine ⟨hinv.pending.spawn hstart, hinv.rows, fun j call origin hj hchosen => ?_⟩
    obtain ⟨_, rfl⟩ | ⟨_, hj⟩ := Program.update_cases hj
    · exact absurd ((StartsParsedJobs.unflagged hstart).1.symm.trans hchosen) (by simp)
    · exact hinv.chosen j call origin hj hchosen
  · cases step_cases hstep with
    | @service call call' label world hservice =>
        refine ⟨hinv.pending.afterCall hi hservice, fun origin hlink => ?_,
          fun j other origin hj hchosen => ?_⟩
        · obtain hold | hflag := step_links hservice (hinv.pending i call · hi) hlink
          · exact hinv.rows origin hold
          · exact hinv.chosen i call origin hi hflag
        · obtain ⟨rfl, rfl⟩ | ⟨_, hj⟩ := afterCall_cases hj
          · -- What the query has returned it can find.
            obtain ⟨job, shot, k, n, origins, row, rfl, rfl, horigins, hrow, rfl, _⟩ :=
              step_choose hservice hchosen
            obtain ⟨hmem, hfind⟩ := originCandidates_mem horigins (List.mem_of_getElem? hrow)
            exact hnothing _ shot hi rfl rfl row hmem hfind
          · exact hinv.chosen j other origin hj hchosen
    | publisher hpublisher =>
        refine ⟨fun j call shot hj => hinv.pending j call shot (afterCycleStep_cases hj),
          fun origin hlink => hinv.rows origin ((links_congr hpublisher.tables.1).mp hlink),
          fun j call origin hj => hinv.chosen j call origin (afterCycleStep_cases hj)⟩
  · obtain ⟨world, hworld, rfl⟩ := Option.map_eq_some_iff.mp hevent
    exact ⟨hinv.pending, fun origin hlink =>
      hinv.rows origin ((links_congr (event_same hworld).shots).mp hlink), hinv.chosen⟩

/-- An event agrees with its row, whenever it has been emitted, exactly when the
shot is not flagged. And a shot that is not flagged at first is not flagged by a
run in which the origin query of its attempts has nothing to find. -/
theorem emitted_agree {deps : Deps} {c₀ c : Config} {as : List Action} {event : OutboxEvent}
    (hinit : (writtenSystem deps).init c₀)
    (hrun : (writtenSystem deps).Run (fun _ => StartsParsed deps.sha256) c₀ as c)
    (hemitted : Emitted c event) :
    (Agrees c.shared.db event ↔ Unflagged c.shared.db event.payload.canonical_shot_id) ∧
      (Unflagged c₀.shared.db event.payload.canonical_shot_id →
        (writtenSystem deps).Run (AgreementGuard deps event.payload.canonical_shot_id) c₀ as c →
          Agrees c.shared.db event) := by
  have hiff := agrees_iff ((writtenInv_of_reach ⟨c₀, as, hinit, hrun⟩).emitted event hemitted)
  refine ⟨hiff, fun hunflagged hguarded => hiff.mpr ?_⟩
  have hnone {i : ℕ} {p : OutboxCall} : c₀.threads i ≠ some p := fun hi =>
    absurd ((hinit.2 i).symm.trans hi) (by simp)
  have hstart : UnflaggedInv event.payload.canonical_shot_id c₀ :=
    ⟨fun i call shot hi => absurd hi hnone, hunflagged, fun i call origin hi => absurd hi hnone⟩
  exact (hguarded.invariant (fun c a c' hinv hguard hexec => hinv.step hguard hexec) hstart).rows

/-! ### Two drives, and a poll when both are processed -/

def noDrives : Config where
  shared := { Service.noCalls.shared with locks := fun _ => none }
  threads := fun _ => none

def writtenEvent (id : ℕ) (ulid : String) (payload : TrackproPayload) : OutboxEvent where
  id := id
  event_type := "shot.persisted"
  payload := (driveJob ulid payload).normalisedShot.toShotWithoutPayload
  created_at := 1710498600000

def drivesEvents : List OutboxEvent :=
  [writtenEvent 1 firstId firstDrive, writtenEvent 2 secondId secondDrive]

/-- The first drive is processed; then the second is inserted and flagged, and
the patch of its event is refused; then a cycle emits both events. -/
def pollActions : List Action :=
  [.spawn 0 (.service (.process (process (driveJob firstId firstDrive)))),
    .step 0 (.service (.ok 0)), .step 0 (.service (.ok 0)), .step 0 (.service (.ok 0)),
    .step 0 (.service (.ok 0)), .step 0 (.service (.ok 0)),
    .spawn 1 (.service (.process (process (driveJob secondId secondDrive)))),
    .step 1 (.service (.ok 0)), .step 1 (.service (.ok 0)), .step 1 (.service (.ok 0)),
    .step 1 (.service (.ok 0)), .step 1 (.service .fail),
    .spawn 2 (.publisher .select), .step 2 (.publisher (.rows drivesEvents)),
    .step 2 (.publisher (.emitted false)), .step 2 (.publisher (.emitted false))]

def afterPoll : Config := ((writtenSystem driveDeps).execAll noDrives pollActions).getD noDrives

def OutboxCall.emissions : OutboxCall → List (OutboxEvent × Bool)
  | .service _ => []
  | .publisher s => s.cycle.emissions

def OutboxCall.window : OutboxCall → Option (String × String)
  | .service call => call.window
  | .publisher _ => none

def OutboxCall.looking : OutboxCall → Option NormalisedShot
  | .service call => call.looking
  | .publisher _ => none

theorem pollActions_evaluate :
    ((writtenSystem driveDeps).execAll noDrives pollActions).isSome = true ∧
      (∀ k < pollActions.length, ((writtenSystem driveDeps).execAll noDrives
        (pollActions.take k)).map (fun d => (List.range 3).all fun i =>
          ((d.threads i).bind OutboxCall.looking).all fun shot =>
            shot.canonical_shot_id ≠ firstId ∨ d.shared.db.shots.all fun row =>
              ¬ CanFind driveSha256 shot.toShotWithoutPayload row.toShotWithoutPayload) =
        some true) ∧
      (afterPoll.threads 2).map OutboxCall.emissions = some (drivesEvents.map (·, false)) ∧
      (∀ i < 3, (afterPoll.threads i).map OutboxCall.window = some none) ∧
      (secondId, some firstId) ∈ afterPoll.shared.db.shots.map fun row =>
        (row.canonical_shot_id, row.duplicate_of) := by
  decide +kernel

theorem noDrives_init : (writtenSystem driveDeps).init noDrives :=
  ⟨⟨⟨⟨List.nodup_nil, fun _ hevent => absurd hevent List.not_mem_nil, fun _ => rfl⟩, fun _ => rfl⟩,
    fun _ hevent => absurd hevent List.not_mem_nil⟩, fun _ => rfl⟩

theorem pollActions_start : ∀ a ∈ pollActions, StartsParsed driveSha256 a := by
  simp only [pollActions, List.forall_mem_cons]
  refine ⟨startsParsedJobs_drive (i := 0), trivial, trivial, trivial, trivial, trivial,
    startsParsedJobs_drive (i := 1), ?_⟩
  simp [StartsParsed]

theorem run_pollActions :
    (writtenSystem driveDeps).Run (fun _ => StartsParsed driveSha256) noDrives pollActions
      afterPoll :=
  System.run_of_isSome (fun a ha _ => pollActions_start a ha) pollActions_evaluate.1

theorem emitted_afterPoll {event : OutboxEvent} (hevent : event ∈ drivesEvents) :
    Emitted afterPoll event := by
  obtain ⟨call, hi, hemissions⟩ := Option.map_eq_some_iff.mp pollActions_evaluate.2.2.1
  have hmem : (event, false) ∈ call.emissions := hemissions ▸ List.mem_map_of_mem hevent
  cases call with
  | service call => exact absurd hmem List.not_mem_nil
  | publisher s => exact ⟨2, s, false, hi, hmem⟩

/-- The event of the second drive does not agree with its row, which is flagged,
also when no attempt is at work any more. -/
theorem emitted_not_agree :
    ¬ ∀ (deps : Deps) (c : Config),
      (writtenSystem deps).Reach (fun _ => StartsParsed deps.sha256) c →
      (∀ i call, c.threads i = some (.service call) → call.window = none) →
      ∀ event, Emitted c event → Agrees c.shared.db event := by
  intro h
  have hnone (j : ℕ) : afterPoll.threads (j + 3) = none :=
    Program.threads_of_execAll (System.execAll_of_run run_pollActions) rfl fun p => by
      simp [pollActions]
  have hidle : ∀ i call, afterPoll.threads i = some (.service call) → call.window = none :=
    fun i call hi => Program.forall_of_lt (A := fun p : OutboxCall => p.window = none) hnone
      (fun j hj => Option.map_eq_some_iff.mp (pollActions_evaluate.2.2.2.1 j hj)) i _ hi
  obtain ⟨row, hrow, hid, hdup⟩ : Links afterPoll.shared.db secondId firstId :=
    links_of_map pollActions_evaluate.2.2.2.2
  have hemitted : Emitted afterPoll (writtenEvent 2 secondId secondDrive) :=
    emitted_afterPoll (by simp [drivesEvents])
  have hagrees := h driveDeps _ ⟨noDrives, pollActions, noDrives_init, run_pollActions⟩ hidle _
    hemitted
  exact absurd ((hagrees.2 row hrow hid).trans hdup) (by
    simp [writtenEvent, driveJob, driveShot, trackproShot])

/-- When the first drive is looked up for there is nothing to find. -/
theorem run_pollActions_first :
    (writtenSystem driveDeps).Run (AgreementGuard driveDeps firstId) noDrives pollActions
      afterPoll := by
  refine System.run_of_guards pollActions_evaluate.1 fun k a d ha hd =>
    ⟨pollActions_start a (List.mem_of_getElem? ha), ?_⟩
  obtain ⟨hk, _⟩ := List.getElem?_eq_some_iff.mp ha
  have hnothing := pollActions_evaluate.2.1 k hk
  rw [hd, Option.map_some, Option.some_inj, List.all_eq_true] at hnothing
  have hnone (j : ℕ) : d.threads (j + 3) = none :=
    Program.threads_of_execAll hd rfl fun p hp => by
      have hspawn := List.mem_of_mem_take hp
      simp [pollActions] at hspawn
  cases a with
  | step i e =>
      cases e with
      | service label =>
          cases label with
          | ok n =>
              intro call shot hi hlooking hid row hrow
              have hlt : i < 3 := by
                by_contra hge
                obtain ⟨j, rfl⟩ := Nat.exists_eq_add_of_le' (Nat.le_of_not_lt hge)
                exact absurd ((hnone j).symm.trans hi) (by simp)
              have hall := hnothing i (List.mem_range.mpr hlt)
              rw [hi, Option.bind_some, OutboxCall.looking, hlooking] at hall
              simp only [Option.all_some, hid, ne_eq, not_true_eq_false, false_or,
                decide_eq_true_eq, List.all_eq_true] at hall
              exact hall row hrow
          | _ => trivial
      | publisher label => trivial
  | _ => trivial

/-- The event of the first drive agrees with its row. -/
theorem emitted_agree_afterPoll :
    Agrees afterPoll.shared.db (writtenEvent 1 firstId firstDrive) := by
  have hunflagged : Unflagged noDrives.shared.db firstId := fun origin ⟨row, hrow, _⟩ =>
    absurd hrow List.not_mem_nil
  exact (emitted_agree noDrives_init run_pollActions
    (emitted_afterPoll (by simp [drivesEvents]))).2 hunflagged run_pollActions_first

end PureplayIngest.Outbox
