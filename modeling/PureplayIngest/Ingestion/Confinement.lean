import PureplayIngest.Ingestion.EventAgreement
import PureplayIngest.Stats.StatsService

/-!
What the raw payload of a shot has an influence on.

When the raw payloads are erased, and the bodies of the recorded failures, which
are made of them, every step that could be made still can be. Two runs that
differ in the raw payloads of their jobs only are one run when they are erased,
so that whatever can be read off the erased tables is the same in both.
-/

namespace PureplayIngest

open Shared Shared.Domain Shared.Kysely Identity Ingestion Lib Shots Stats Webhooks

/-! ### Erasure -/

def Shared.Domain.NormalisedShot.erase (shot : NormalisedShot) : NormalisedShot :=
  { shot with raw_payload := .null }

def Shared.Kysely.IngestionFailure.erase (failure : IngestionFailure) : IngestionFailure :=
  { failure with raw_body := "" }

def Shared.Kysely.Database.erase (db : Database) : Database :=
  { db with
    shots := db.shots.map NormalisedShot.erase
    ingestion_failures := db.ingestion_failures.map IngestionFailure.erase }

def Identity.Stores.erase (w : Stores) : Stores := { w with db := w.db.erase }

def Ingestion.World.erase (w : World) : World := { w with toStores := w.toStores.erase }

def Ingestion.ShotJob.erase (job : ShotJob) : ShotJob :=
  { job with normalisedShot := job.normalisedShot.erase }

def Ingestion.ProcessState.erase : ProcessState → ProcessState
  | .recordFailure job => .recordFailure job.erase
  | .resolving job call => .resolving job.erase call
  | .upsert job shot => .upsert job.erase shot.erase
  | .lookup job shot id => .lookup job.erase shot.erase id
  | .flag job shot id origin => .flag job.erase shot.erase id origin
  | .patchOutbox job id origin => .patchOutbox job.erase id origin
  | .returned job => .returned job.erase
  | .failed job => .failed job.erase

def Call.erase : Call → Call
  | .process s => .process s.erase
  | .resolve s => .resolve s
  | .link s => .link s
  | .unlink s => .unlink s
  | .list s => .list s

def Outbox.OutboxWorld.erase (w : OutboxWorld) : OutboxWorld :=
  { w with toWorld := w.toWorld.erase }

def Outbox.OutboxCall.erase : OutboxCall → OutboxCall
  | .service call => .service call.erase
  | .publisher s => .publisher s

/-! ### Statements -/

section

variable {db : Database} {shot : NormalisedShot}

theorem findByIdempotencyKey_erase (key : Vendor × String) :
    findByIdempotencyKey db.erase key = (findByIdempotencyKey db key).map NormalisedShot.erase := by
  rw [findByIdempotencyKey, Database.erase, List.find?_map]
  rfl

theorem violatesKeys_erase (shot : ShotWithoutPayload) :
    violatesKeys db.erase shot ↔ violatesKeys db shot := by
  simp only [violatesKeys, Database.erase, List.mem_map, exists_exists_and_eq_and,
    forall_exists_index, and_imp, forall_apply_eq_imp_iff₂]
  rfl

/-- A row that is taken with its payload is taken without it. -/
theorem upsertIfNew_erase {db' : Database} {result : UpsertResult}
    (h : upsertIfNew db shot = some (db', result)) :
    upsertIfNew db.erase shot.erase = some (db'.erase, result) := by
  have haccepted : Migrations.ShotAccepted shot.erase :=
    ⟨(upsertIfNew_cases h).1.row, fun s hs => absurd hs List.not_mem_nil⟩
  have hshot : shot.erase.toShotWithoutPayload = shot.toShotWithoutPayload := rfl
  rw [upsertIfNew, if_pos (upsertIfNew_cases h).1] at h
  rw [upsertIfNew, if_pos haccepted, hshot, findByIdempotencyKey_erase]
  cases hfind : findByIdempotencyKey db (shotKey shot.toShotWithoutPayload) with
  | some existing =>
      rw [hfind] at h
      obtain ⟨rfl, rfl⟩ := Prod.mk.inj (Option.some.inj h)
      rfl
  | none =>
      simp only [hfind] at h
      split at h
      · exact absurd h (by simp)
      · rename_i hkeys
        obtain ⟨rfl, rfl⟩ := Prod.mk.inj (Option.some.inj h)
        show (if violatesKeys db.erase _ then none else _) = _
        rw [if_neg (mt (violatesKeys_erase _).mp hkeys)]
        refine congrArg some (Prod.ext ?_ rfl)
        show Database.insertOutboxEvent _ _ = (Database.insertOutboxEvent _ _).erase
        simp only [Database.insertOutboxEvent, Database.erase, List.map_append,
          List.map_singleton]
        rfl

theorem originRows_erase (sha256 : String → String) (shot : ShotWithoutPayload)
    (lower upper prev : ℤ) :
    originRows sha256 db.erase shot lower upper prev =
      (originRows sha256 db shot lower upper prev).map NormalisedShot.erase := by
  rw [originRows, originRows, Database.erase, List.filter_map]
  rfl

theorem earliest_erase (rows : List NormalisedShot) :
    earliest (rows.map NormalisedShot.erase) = (earliest rows).map NormalisedShot.erase := by
  rw [earliest, earliest, List.filter_map]
  refine congrArg _ (List.filter_congr fun row _ => ?_)
  simp only [Function.comp_apply, List.forall_mem_map]
  rfl

theorem originCandidates_erase (sha256 : String → String) (db : Database)
    (shot : ShotWithoutPayload) :
    originCandidates sha256 db.erase shot =
      (originCandidates sha256 db shot).map (List.map NormalisedShot.erase) := by
  rw [originCandidates, originCandidates]
  cases toISOString (shot.captured_at_utc - nearDedupeWindowSeconds * 1000) with
  | error e => rfl
  | ok lower =>
      cases toISOString (shot.captured_at_utc + nearDedupeWindowSeconds * 1000) with
      | error e => rfl
      | ok upper =>
          cases toISOString (shot.captured_at_utc - 60000) with
          | error e => rfl
          | ok prev =>
              refine congrArg Except.ok ?_
              rw [originRows_erase, earliest_erase]

/-- An update of the rows that neither reads nor writes the raw payload. -/
theorem mapShots_erase {f : NormalisedShot → NormalisedShot}
    (hf : ∀ row, f row.erase = (f row).erase) :
    ({ db.erase with shots := db.erase.shots.map f } : Database) =
      Database.erase { db with shots := db.shots.map f } := by
  have hrows : (db.shots.map NormalisedShot.erase).map f =
      (db.shots.map f).map NormalisedShot.erase := by
    rw [List.map_map, List.map_map]
    exact List.map_congr_left fun row _ => hf row
  exact congrArg (fun shots => ({ db.erase with shots := shots } : Database)) hrows

theorem flagDuplicate_erase (id origin : String) :
    flagDuplicate db.erase id origin = (flagDuplicate db id origin).erase := by
  refine mapShots_erase fun row => ?_
  show (if row.canonical_shot_id = id then _ else _) = NormalisedShot.erase (if _ then _ else _)
  split <;> rfl

theorem backfillCanonicalUser_erase (pair : Vendor × String) (c : String) :
    backfillCanonicalUser db.erase pair c = (backfillCanonicalUser db pair c).erase := by
  refine mapShots_erase fun row => ?_
  show (if row.vendor = pair.1 ∧ row.vendor_user_id = pair.2 ∧ row.canonical_user_id = none then _
    else _) = NormalisedShot.erase (if _ then _ else _)
  split <;> rfl

theorem recordIngestionFailure_erase (failure : IngestionFailure) :
    recordIngestionFailure db.erase failure.erase = (recordIngestionFailure db failure).erase := by
  simp only [recordIngestionFailure, Database.erase, List.map_append, List.map_singleton]

theorem linkTransaction_erase (pair : Vendor × String) (c actor : String) :
    linkTransaction db.erase pair c actor =
      (linkTransaction db pair c actor).map (Prod.map Database.erase id) := by
  rw [linkTransaction, linkTransaction]
  split
  · rw [upsertIdentity, upsertIdentity]
    show Option.some _ = _
    cases hfind : db.user_identities.find? fun row => pairOf row = pair with
    | some existing => simp only [Database.erase, hfind]; rfl
    | none => simp only [Database.erase, hfind]; rfl
  · rfl

theorem unlinkTransaction_erase (pair : Vendor × String) (c actor : String) :
    unlinkTransaction db.erase pair c actor =
      (unlinkTransaction db pair c actor).map Database.erase := by
  have herase : db.erase.user_identities = db.user_identities := rfl
  simp only [unlinkTransaction, herase]
  split <;> rfl

end

/-! ### Steps -/

/-- Without a function that looks at raw payloads. -/
def Ingestion.Deps.erase (deps : Deps) : Deps := { deps with redactPii := fun _ => some "" }

section

variable {deps : Deps}

theorem resolveState_erase (w : Stores) (s : ResolveState) :
    s.step w.erase = (s.step w).map (Prod.map Stores.erase id) := by
  cases s with
  | get pair =>
      simp only [ResolveState.step, Stores.erase]
      split <;> rfl
  | select pair => rfl
  | set pair result => rfl
  | returned pair result => rfl

theorem linkState_erase (w : Stores) (s : LinkState) :
    s.step w.erase = (s.step w).map (Prod.map Stores.erase id) := by
  cases s with
  | commit pair c actor =>
      have hlink : linkTransaction w.db.erase pair c actor =
          (linkTransaction w.db pair c actor).map (Prod.map Database.erase id) :=
        linkTransaction_erase pair c actor
      rw [LinkState.step, LinkState.step]
      show (linkTransaction w.db.erase pair c actor).map _ = _
      rw [hlink]
      cases linkTransaction w.db pair c actor with
      | none => rfl
      | some r => rfl
  | del pair c row => rfl
  | backfill pair c row =>
      refine congrArg some (Prod.ext ?_ rfl)
      exact congrArg (fun db => { w with db }) (backfillCanonicalUser_erase pair c)
  | finished pair c row b => rfl
  | rejected pair c b => rfl

theorem unlinkState_erase (w : Stores) (s : UnlinkState) :
    s.step w.erase = (s.step w).map (Prod.map Stores.erase id) := by
  cases s with
  | commit pair c actor =>
      have hunlink : unlinkTransaction w.erase.db pair c actor =
          (unlinkTransaction w.db pair c actor).map Database.erase :=
        unlinkTransaction_erase pair c actor
      rw [UnlinkState.step, UnlinkState.step, hunlink]
      cases unlinkTransaction w.db pair c actor with
      | none => rfl
      | some db => rfl
  | _ => rfl

theorem listState_erase (w : Stores) (order : List VendorIdentity) (s : ListState) :
    s.step w.erase order = (s.step w order).map (Prod.map Stores.erase id) := by
  cases s with
  | get c actor =>
      simp only [ListState.step, Stores.erase]
      split <;> rfl
  | select c actor =>
      simp only [ListState.step, Stores.erase]
      show (if OrderedByCreation order (identitiesOf w.db c) then _ else _) = _
      split <;> rfl
  | set c actor rows => rfl
  | audit c actor rows => rfl
  | finished c rows => rfl

theorem resolvedShot_erase (shot : NormalisedShot) (user : Option String) :
    resolvedShot shot.erase user = (resolvedShot shot user).erase := by
  rw [resolvedShot.eq_def, resolvedShot.eq_def]
  split
  · rfl
  · split <;> rfl

theorem processState_erase {w w' : World} {k : ℕ} {s s' : ProcessState}
    (h : s.step deps w k = some (w', s')) :
    s.erase.step deps.erase w.erase k = some (w'.erase, s'.erase) := by
  cases ProcessState.step_cases h with
  | recordFailure job =>
      refine congrArg some (Prod.ext ?_ rfl)
      have hrecord : recordIngestionFailure w.db.erase (job.failure deps).erase =
          (recordIngestionFailure w.db (job.failure deps)).erase :=
        recordIngestionFailure_erase (job.failure deps)
      exact congrArg (fun db => World.record { w with db } [job.outcome "rejected_clock"]) hrecord
  | @resolving job call call' stores hcall =>
      have herase : call.step w.erase.toStores = some (stores.erase, call') := by
        have hstep := resolveState_erase w.toStores call
        rw [hcall] at hstep
        exact hstep
      simp only [ProcessState.erase, ProcessState.step, herase, Option.map_some]
      refine congrArg some (Prod.ext rfl ?_)
      cases call' with
      | returned pair user =>
          exact congrArg (ProcessState.upsert job.erase)
            (resolvedShot_erase job.normalisedShot user)
      | _ => rfl
  | duplicate job hupsert =>
      have herase := upsertIfNew_erase hupsert
      simp only [ProcessState.erase, ProcessState.step]
      show (upsertIfNew w.db.erase _).map _ = _
      rw [herase]
      rfl
  | inserted job hupsert =>
      have herase := upsertIfNew_erase hupsert
      simp only [ProcessState.erase, ProcessState.step]
      show (upsertIfNew w.db.erase _).map _ = _
      rw [herase]
      rfl
  | @accepted job shot id hnone =>
      have hlookup : originCandidates deps.erase.sha256 w.erase.db
          shot.erase.toShotWithoutPayload = .ok [] := by
        refine (originCandidates_erase deps.sha256 w.db shot.toShotWithoutPayload).trans ?_
        rw [hnone]
        rfl
      simp only [ProcessState.erase, ProcessState.step]
      rw [hlookup]
      rfl
  | @choose job shot origin id rows hrows horigin =>
      have hlookup : originCandidates deps.erase.sha256 w.erase.db
          shot.erase.toShotWithoutPayload = .ok (rows.map NormalisedShot.erase) := by
        refine (originCandidates_erase deps.sha256 w.db shot.toShotWithoutPayload).trans ?_
        rw [hrows]
        rfl
      simp only [ProcessState.erase, ProcessState.step]
      rw [hlookup]
      cases rows with
      | nil => exact absurd horigin (by simp)
      | cons row rows =>
          show (((row :: rows).map NormalisedShot.erase)[k]?).map _ = _
          rw [List.getElem?_map, horigin]
          rfl
  | flag job shot id origin =>
      refine congrArg some (Prod.ext ?_ rfl)
      exact congrArg (fun db => World.record { w with db }
        [.nearDuplicates job.normalisedShot.vendor, job.outcome "duplicate_near"])
        (flagDuplicate_erase shot.canonical_shot_id origin)

/-- A step of an identity call, inside the service. -/
theorem identityStep_erase {σ : Type} {w : World} {stores : Stores} {s' : σ}
    (step : Stores → Option (Stores × σ)) (call : σ → Call)
    (herase : step w.toStores.erase = (step w.toStores).map (Prod.map Stores.erase id))
    (hstep : step w.toStores = some (stores, s')) :
    (step w.erase.toStores).map (fun r => (({ w.erase with toStores := r.1 } : World), call r.2)) =
      some (World.erase { w with toStores := stores }, call s') := by
  show (step w.toStores.erase).map _ = _
  rw [herase, hstep]
  rfl

theorem serviceStep_erase {w w' : World} {call call' : Call} {label : Label}
    (h : Service.step deps w call label = some (w', call')) :
    Service.step deps.erase w.erase call.erase label = some (w'.erase, call'.erase) := by
  cases Service.step_cases h with
  | @process s s' k w' hstep =>
      show (s.erase.step deps.erase w.erase k).map _ = _
      rw [processState_erase hstep]
      rfl
  | @processFail s s' hfail =>
      cases s with
      | returned job => exact absurd hfail (by simp [ProcessState.fail])
      | failed job => exact absurd hfail (by simp [ProcessState.fail])
      | _ =>
          obtain rfl := Option.some.inj hfail
          rfl
  | @resolve s s' stores k hstep =>
      exact identityStep_erase (fun w => s.step w) .resolve (resolveState_erase w.toStores s) hstep
  | @link s s' stores k hstep =>
      exact identityStep_erase (fun w => s.step w) .link (linkState_erase w.toStores s) hstep
  | @unlink s s' stores k hstep =>
      exact identityStep_erase (fun w => s.step w) .unlink (unlinkState_erase w.toStores s) hstep
  | @list s s' stores rows hstep =>
      exact identityStep_erase (fun w => s.step w rows) .list
        (listState_erase w.toStores rows s) hstep
  | linkFail hfail =>
      show Option.map _ (LinkState.fail _) = _
      rw [hfail]
      rfl
  | unlinkFail hfail =>
      show Option.map _ (UnlinkState.fail _) = _
      rw [hfail]
      rfl
  | listFail hfail =>
      show Option.map _ (ListState.fail _) = _
      rw [hfail]
      rfl

theorem event_erase {w w' : World} {x : Event} (h : Service.event w x = some w') :
    Service.event w.erase x = some w'.erase := by
  cases x with
  | expire key => exact Option.some.inj h ▸ rfl
  | tick ms => exact Option.some.inj h ▸ rfl

namespace Outbox

/-- A cycle sees nothing of what is erased. -/
theorem publisherStep_erase (i : ℕ) (w : OutboxWorld) (s : PublisherState)
    (label : PublisherLabel) :
    s.step i w.erase label = (s.step i w label).map (Prod.map OutboxWorld.erase id) := by
  cases s with
  | select =>
      cases label with
      | rows batch =>
          show (if OldestUnlocked w.unlocked batch then _ else _) =
            Option.map _ (if _ then _ else _)
          split <;> rfl
      | _ => rfl
  | emit cycle remaining =>
      cases label with
      | _ => cases remaining <;> rfl
  | _ => cases label <;> rfl

theorem step_erase {i : ℕ} {w w' : OutboxWorld} {call call' : OutboxCall} {label : OutboxLabel}
    (h : step deps i w call label = some (w', call')) :
    step deps.erase i w.erase call.erase label = some (w'.erase, call'.erase) := by
  cases call with
  | service call =>
      cases label with
      | service label =>
          obtain ⟨⟨world, call₁⟩, hstep, heq⟩ := Option.map_eq_some_iff.mp h
          obtain ⟨rfl, rfl⟩ := Prod.mk.inj heq
          show (Service.step deps.erase w.toWorld.erase call.erase label).map _ = _
          rw [serviceStep_erase hstep]
          rfl
      | publisher label => exact absurd h (by simp [step])
  | publisher s =>
      cases label with
      | service label => exact absurd h (by simp [step])
      | publisher label =>
          obtain ⟨⟨world, s₁⟩, hstep, heq⟩ := Option.map_eq_some_iff.mp h
          obtain ⟨rfl, rfl⟩ := Prod.mk.inj heq
          show (s.step i w.erase label).map _ = _
          rw [publisherStep_erase, hstep]
          rfl

theorem event_erase {w w' : OutboxWorld} {x : Event} (h : event w x = some w') :
    event w.erase x = some w'.erase := by
  obtain ⟨world, hworld, rfl⟩ := Option.map_eq_some_iff.mp h
  show (Service.event w.toWorld.erase x).map _ = _
  rw [PureplayIngest.event_erase hworld]
  rfl

abbrev eraseConfig (c : Config) : Config := c.map OutboxWorld.erase OutboxCall.erase

abbrev eraseAction (a : Action) : Action := a.map OutboxCall.erase

/-- The erased actions lead from the erased configuration to the erased one. -/
theorem execAll_erase {c d : Config} {as : List Action}
    (h : (system deps).execAll c as = some d) :
    (system deps.erase).execAll (eraseConfig c) (as.map eraseAction) = some (eraseConfig d) :=
  System.execAll_map (fun _ _ _ hexec => Program.exec_map
    (fun _ _ _ _ _ _ => step_erase) (fun _ _ _ => event_erase) hexec) h

end Outbox

end

/-! ### Queries -/

def Shots.StoredShot.erase (row : StoredShot) : StoredShot :=
  { row with toNormalisedShot := row.toNormalisedShot.erase }

section

variable {κ : Type} [LinearOrder κ] (pg : Postgres κ)

theorem selectRun_erase (select : Select) (shots : List StoredShot) :
    select.run pg (shots.map StoredShot.erase) =
      (select.run pg shots).map (List.map StoredShot.erase) := by
  simp only [Select.run, Option.bind_eq_bind, Option.map_bind, Option.pure_def,
    Function.comp_def]
  refine Option.bind_congr fun since _ => Option.bind_congr fun until_ _ => ?_
  refine Option.bind_congr fun user _ => Option.bind_congr fun vendorUser _ => ?_
  refine Option.bind_congr fun cursor _ => Option.bind_congr fun limit _ => ?_
  refine congrArg some ?_
  rw [List.filter_map, Keyset.page_map]
  rfl

theorem slice_map {α β : Type} (f : α → β) (rows : List α) (limit : JsNumber) :
    slice (rows.map f) limit = (slice rows limit).map f := by
  cases limit with
  | finite x =>
      simp only [slice, List.length_map]
      split
      · exact List.map_take.symm
      · exact List.map_take.symm
  | _ => rfl

theorem respond_erase (query : ShotsQuery) (select : Select) (rows : List StoredShot) :
    respond query select (rows.map StoredShot.erase) = respond query select rows := by
  have hresponse (data : List StoredShot) :
      (data.map StoredShot.erase).map StoredShot.toResponse = data.map StoredShot.toResponse := by
    rw [List.map_map]
    rfl
  simp only [respond, List.length_map]
  cases exceeds rows.length select.limit with
  | false => simp only [Bool.false_eq_true, if_false, hresponse]
  | true =>
      simp only [if_true, slice_map, hresponse, List.getLast?_map, Option.map_map]
      rfl

variable (parseDate : String → Option ℤ) (now : ℤ) (shots : List StoredShot)

theorem executeQuery_erase (filter : ShotsFilter) (query : ShotsQuery) :
    executeQuery pg parseDate now (shots.map StoredShot.erase) filter query =
      executeQuery pg parseDate now shots filter query := by
  rw [executeQuery, executeQuery]
  refine congrArg _ (funext fun select => ?_)
  rw [selectRun_erase]
  cases select.run pg shots with
  | none => rfl
  | some rows => exact congrArg Except.ok (respond_erase query select rows)

/-- Rows that tie are not put in order by their raw payloads. -/
def Stats.Newest.Blind (newest : Newest) : Prop :=
  ∀ rows, newest.order (rows.map StoredShot.erase) = (newest.order rows).map StoredShot.erase

theorem Newest.blind_stable : Newest.stable.Blind := fun _ =>
  (List.map_mergeSort (f := StoredShot.erase) fun _ _ _ _ => rfl).symm

variable {newest : Newest} {ν : Type} (numbers : Numbers ν)

omit [LinearOrder κ] in
theorem executeStatsQuery_erase (hblind : newest.Blind) (filter : ShotsFilter) (userLabel : String)
    (query : StatsQuery) :
    executeStatsQuery numbers pg newest parseDate now (shots.map StoredShot.erase) filter userLabel
        query =
      executeStatsQuery numbers pg newest parseDate now shots filter userLabel query := by
  have hrun (select : StatsSelect) : select.run pg newest (shots.map StoredShot.erase) =
      (select.run pg newest shots).map (List.map StoredShot.erase) := by
    simp only [StatsSelect.run, Option.bind_eq_bind, Option.map_bind, Option.pure_def,
      Function.comp_def]
    refine Option.bind_congr fun user _ => Option.bind_congr fun vendorUser _ => ?_
    refine Option.bind_congr fun since _ => Option.bind_congr fun until_ _ => ?_
    refine Option.bind_congr fun _ _ => congrArg some ?_
    rw [List.filter_map, hblind, List.map_take]
    rfl
  rw [executeStatsQuery, executeStatsQuery]
  refine congrArg _ (funext fun select => ?_)
  rw [hrun]
  cases select.run pg newest shots with
  | none => rfl
  | some rows =>
      refine congrArg (fun rows => Except.ok (summarise numbers userLabel query select rows)) ?_
      rw [List.map_map]
      rfl

end

/-! ### Two runs -/

namespace Outbox

theorem zero_lt_thousand : 0 < 1000 := by decide

/-- The rows of `shots` as the queries find them. -/
def storedShots (c : Config) : List StoredShot :=
  c.shared.db.shots.map fun row => { row with microseconds := ⟨0, zero_lt_thousand⟩ }

/-- The shot of the event that is emitted for a row, `{ ...row.payload, raw_payload: {} }`. -/
def emittedShot (row : OutboxEvent) : NormalisedShot := { row.payload with raw_payload := .obj [] }

/-- What the cycle of a publisher has emitted. -/
def emittedShots (c : Config) (i : ℕ) : List NormalisedShot :=
  match c.threads i with
  | some (.publisher s) => s.cycle.emissions.map fun emission => emittedShot emission.1
  | _ => []

/-- What two states have in common whose runs differ in raw payloads only. -/
structure Confined (c c' : Config) : Prop where
  outbox_events : c.shared.db.outbox_events = c'.shared.db.outbox_events
  emitted : ∀ i, emittedShots c i = emittedShots c' i
  columns : c.shared.db.shots.map NormalisedShot.toShotWithoutPayload =
    c'.shared.db.shots.map NormalisedShot.toShotWithoutPayload
  listByCanonicalUser : ∀ {κ : Type} [LinearOrder κ] (pg : Postgres κ) parseDate now userId query,
    Shots.listByCanonicalUser pg parseDate now (storedShots c) userId query =
      Shots.listByCanonicalUser pg parseDate now (storedShots c') userId query
  listByVendorUser : ∀ {κ : Type} [LinearOrder κ] (pg : Postgres κ) parseDate now vendor
    vendorUserId query,
    Shots.listByVendorUser pg parseDate now (storedShots c) vendor vendorUserId query =
      Shots.listByVendorUser pg parseDate now (storedShots c') vendor vendorUserId query
  getStats : ∀ {κ ν : Type} (numbers : Numbers ν) (pg : Postgres κ) {newest : Newest}
    (_ : newest.Blind) parseDate now userId query,
    Stats.getStats numbers pg newest parseDate now (storedShots c) userId query =
      Stats.getStats numbers pg newest parseDate now (storedShots c') userId query
  getStatsByVendorUser : ∀ {κ ν : Type} (numbers : Numbers ν) (pg : Postgres κ) {newest : Newest}
    (_ : newest.Blind) parseDate now vendor vendorUserId query,
    Stats.getStatsByVendorUser numbers pg newest parseDate now (storedShots c) vendor vendorUserId
        query =
      Stats.getStatsByVendorUser numbers pg newest parseDate now (storedShots c') vendor
        vendorUserId query

theorem storedShots_erase (c : Config) : (storedShots c).map StoredShot.erase =
    c.shared.db.erase.shots.map fun row => { row with microseconds := ⟨0, zero_lt_thousand⟩ } := by
  rw [storedShots, Database.erase, List.map_map, List.map_map]
  rfl

theorem columns_erase (db : Database) :
    db.erase.shots.map NormalisedShot.toShotWithoutPayload =
      db.shots.map NormalisedShot.toShotWithoutPayload := by
  rw [Database.erase, List.map_map]
  rfl

theorem emittedShots_erase (c : Config) (i : ℕ) :
    emittedShots (eraseConfig c) i = emittedShots c i := by
  show (match (c.threads i).map OutboxCall.erase with | some (.publisher s) => _ | _ => _) = _
  rw [emittedShots]
  cases c.threads i with
  | none => rfl
  | some call => cases call <;> rfl

theorem confined_of_erase {c c' : Config} (h : eraseConfig c = eraseConfig c') : Confined c c' := by
  have hdb : c.shared.db.erase = c'.shared.db.erase :=
    congrArg (fun c : Config => c.shared.db) h
  have hevents : c.shared.db.erase.outbox_events = c'.shared.db.erase.outbox_events :=
    congrArg Database.outbox_events hdb
  have hstored : (storedShots c).map StoredShot.erase = (storedShots c').map StoredShot.erase := by
    rw [storedShots_erase, storedShots_erase, hdb]
  have hquery {κ : Type} [LinearOrder κ] (pg : Postgres κ) parseDate now filter query :
      executeQuery pg parseDate now (storedShots c) filter query =
        executeQuery pg parseDate now (storedShots c') filter query := by
    rw [← executeQuery_erase pg parseDate now (storedShots c), hstored, executeQuery_erase]
  have hstats {κ ν : Type} (numbers : Numbers ν) (pg : Postgres κ) {newest : Newest}
      (hblind : newest.Blind) parseDate now filter userLabel query :
      executeStatsQuery numbers pg newest parseDate now (storedShots c) filter userLabel query =
        executeStatsQuery numbers pg newest parseDate now (storedShots c') filter userLabel
          query := by
    rw [← executeStatsQuery_erase pg parseDate now (storedShots c) numbers hblind, hstored,
      executeStatsQuery_erase pg parseDate now _ numbers hblind]
  refine ⟨hevents, fun i => ?_, ?_, fun pg parseDate now userId query =>
    hquery pg .., fun pg parseDate now vendor vendorUserId query => ?_,
    fun numbers pg _ hblind parseDate now userId query => hstats numbers pg hblind ..,
    fun numbers pg _ hblind parseDate now vendor vendorUserId query => ?_⟩
  · rw [← emittedShots_erase c, h, emittedShots_erase]
  · rw [← columns_erase c.shared.db, hdb, columns_erase]
  · rw [Shots.listByVendorUser, Shots.listByVendorUser]
    split
    · rfl
    · exact hquery pg ..
  · rw [Stats.getStatsByVendorUser, Stats.getStatsByVendorUser]
    split
    · rfl
    · exact hstats numbers pg hblind ..

/-- Raw payloads are confined. Two runs whose actions differ in the raw payloads
of the submitted shots only, from states that differ no more, agree on outbox
and events, on every other column of `shots` and on every answer of a query. -/
theorem raw_payload_confined {deps : Deps} {c c' d d' : Config} {as as' : List Action}
    (hstart : eraseConfig c = eraseConfig c') (hsame : as.map eraseAction = as'.map eraseAction)
    (hrun : (system deps).Run System.free c as d)
    (hrun' : (system deps).Run System.free c' as' d') :
    Confined d d' := by
  refine confined_of_erase (Option.some.inj ?_)
  calc some (eraseConfig d)
      = (system deps.erase).execAll (eraseConfig c) (as.map eraseAction) :=
        (execAll_erase (System.execAll_of_run hrun)).symm
    _ = (system deps.erase).execAll (eraseConfig c') (as'.map eraseAction) := by rw [hstart, hsame]
    _ = some (eraseConfig d') := execAll_erase (System.execAll_of_run hrun')

/-! ### A batch with one or the other address -/

def rangeShot : SwingmetricShot where
  ts_ms := ⟨1710498605000, by decide, by decide⟩
  club := ⟨"5W", by decide, by decide⟩
  ball_speed_mph := ⟨148, by norm_num, by norm_num⟩
  swing_speed_mph := none
  launch_deg := ⟨13, by norm_num, by norm_num⟩
  spin_rpm := none
  carry_yd := ⟨231, by norm_num, by norm_num⟩
  total_yd := none
  offline_yd := ⟨-6, by norm_num, by norm_num⟩

def rangePayload (email : Email) : SwingmetricPayload where
  session_id := ⟨"range-session-1", by decide, by decide⟩
  player := { id := ⟨"range-player-1", by decide, by decide⟩, email := some email }
  device := ⟨"range-bay-1", by decide, by decide⟩
  shots := [rangeShot]
  shots_min := by simp
  shots_max := by simp

/-- The shot as the parser makes it, with the address of the player in its payload. -/
def rangeJob (email : Email) : ShotJob where
  vendor := .swingmetric
  normalisedShot := swingmetricShot driveSha256 secondId rangeShot (rangePayload email)
    1710498606000 rangeShot.ts_ms.value
  correlationId := "4c7f2a44-6a51-4b8e-9f0c-3d6a1f6f2b10"
  receivedAtUtc := 1710498606000

def janeDoe : Email := ⟨⟨"jane.doe@example.com", by decide, by decide⟩, by decide⟩

def johnDoe : Email := ⟨⟨"john.doe@example.com", by decide, by decide⟩, by decide⟩

/-- The shot is inserted, its event is published, and no origin is found. -/
def rangeActions (email : Email) : List Action :=
  [.spawn 0 (.service (.process (process (rangeJob email)))),
    .step 0 (.service (.ok 0)), .step 0 (.service (.ok 0)), .step 0 (.service (.ok 0)),
    .step 0 (.service (.ok 0)),
    .spawn 1 (.publisher .select),
    .step 1 (.publisher (.rows [⟨1, "shot.persisted",
      (rangeJob janeDoe).normalisedShot.toShotWithoutPayload, 1710498600000⟩])),
    .step 1 (.publisher (.emitted false)), .step 1 (.publisher .ok), .step 1 (.publisher .ok),
    .step 0 (.service (.ok 0))]

def afterRange (email : Email) : Config :=
  ((system driveDeps).execAll noDrives (rangeActions email)).getD noDrives

/-- With either address one shot is emitted, and it is the same. So are the
statistics when rows that tie are left in the order of the table. -/
theorem raw_payload_confined_drive :
    Confined (afterRange janeDoe) (afterRange johnDoe) ∧
      (emittedShots (afterRange janeDoe) 1).length = 1 ∧
      ∀ {κ ν : Type} (numbers : Numbers ν) (pg : Postgres κ) parseDate now userId query,
        Stats.getStats numbers pg .stable parseDate now (storedShots (afterRange janeDoe)) userId
            query =
          Stats.getStats numbers pg .stable parseDate now (storedShots (afterRange johnDoe)) userId
            query := by
  obtain ⟨hsome, hsome', hemitted⟩ :
      ((system driveDeps).execAll noDrives (rangeActions janeDoe)).isSome = true ∧
        ((system driveDeps).execAll noDrives (rangeActions johnDoe)).isSome = true ∧
        (emittedShots (afterRange janeDoe) 1).length = 1 := by
    decide +kernel
  have hrun : (system driveDeps).Run System.free noDrives (rangeActions janeDoe)
      (afterRange janeDoe) := System.run_of_isSome (fun _ _ _ => trivial) hsome
  have hrun' : (system driveDeps).Run System.free noDrives (rangeActions johnDoe)
      (afterRange johnDoe) := System.run_of_isSome (fun _ _ _ => trivial) hsome'
  have hsame : (rangeActions janeDoe).map eraseAction = (rangeActions johnDoe).map eraseAction :=
    rfl
  have hconfined := raw_payload_confined rfl hsame hrun hrun'
  exact ⟨hconfined, hemitted, fun numbers pg => hconfined.getStats numbers pg Newest.blind_stable⟩

end Outbox

end PureplayIngest
