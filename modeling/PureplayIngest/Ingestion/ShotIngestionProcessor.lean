import PureplayIngest.Identity.IdentityService
import PureplayIngest.Ingestion.ShotRepository

/-!
`ShotIngestionProcessor.process`, as the steps an attempt takes: one for each
statement, transaction or Redis command, together with the code that runs
until the next one is awaited.

Nothing here depends on what `redactPii` writes, so it is a parameter, `none`
where it throws.
-/

namespace PureplayIngest.Ingestion

open Shared Shared.Domain Shared.Kysely Identity

structure ShotJob where
  vendor : Vendor
  normalisedShot : NormalisedShot
  correlationId : String
  receivedAtUtc : ℤ

inductive Metric
  | shotsTotal (vendor : Vendor) (outcome parserVersion : String)
  | nearDuplicates (vendor : Vendor)
  | e2eLag (vendor : Vendor) (lagMs : ℤ)
  deriving DecidableEq

/-- What the code calls that is not part of the model. -/
structure Deps where
  sha256 : String → String
  redactPii : Json → Option String

/-- The stores, and the metric updates made so far. -/
structure World extends Stores where
  metrics : List Metric

def World.record (w : World) (metrics : List Metric) : World :=
  { w with metrics := w.metrics ++ metrics }

inductive ProcessState
  | recordFailure (job : ShotJob)
  | resolving (job : ShotJob) (call : ResolveState)
  | upsert (job : ShotJob) (resolvedShot : NormalisedShot)
  | lookup (job : ShotJob) (resolvedShot : NormalisedShot) (canonicalShotId : String)
  | flag (job : ShotJob) (resolvedShot : NormalisedShot) (canonicalShotId origin : String)
  | patchOutbox (job : ShotJob) (canonicalShotId origin : String)
  | returned (job : ShotJob)
  | failed (job : ShotJob)

/-- `process(job)`, up to its first round trip. -/
def process (job : ShotJob) : ProcessState :=
  let shot := job.normalisedShot
  if hasExcessiveClockSkew shot.captured_at_utc job.receivedAtUtc then .recordFailure job
  else .resolving job (resolveCanonicalUserId shot.vendor shot.vendor_user_id)

/-- `canonicalUserId ? { ...shot, canonical_user_id: canonicalUserId } : shot`. -/
def resolvedShot (shot : NormalisedShot) (canonicalUserId : Option String) : NormalisedShot :=
  match canonicalUserId with
  | none => shot
  | some c => if c = "" then shot else { shot with canonical_user_id := some c }

/-- Where the attempt goes on once a step of the resolve call is done. -/
def afterResolve (job : ShotJob) : ResolveState → ProcessState
  | .returned _ canonicalUserId => .upsert job (resolvedShot job.normalisedShot canonicalUserId)
  | call => .resolving job call

def ShotJob.outcome (job : ShotJob) (outcome : String) : Metric :=
  .shotsTotal job.normalisedShot.vendor outcome job.normalisedShot.parser_version

/-- The observation an attempt that inserted its shot ends with. -/
def ShotJob.lag (job : ShotJob) (now : ℤ) : Metric :=
  .e2eLag job.normalisedShot.vendor (now - job.receivedAtUtc)

def ShotJob.failure (deps : Deps) (job : ShotJob) : IngestionFailure where
  vendor := job.normalisedShot.vendor
  received_at_utc := job.receivedAtUtc
  raw_body := (deps.redactPii job.normalisedShot.raw_payload).getD "[PII_REDACTION_ERROR]"
  http_status := 0
  error_code := "CLOCK_SKEW_EXCESSIVE"
  captured_at_utc := job.normalisedShot.captured_at_utc
  correlation_id := job.correlationId

/-- The next step of an attempt, when it succeeds. `k` says which of the rows
that come first the origin query returned. -/
def ProcessState.step (deps : Deps) (w : World) (k : ℕ) :
    ProcessState → Option (World × ProcessState)
  | .recordFailure job =>
      let w := { w with db := recordIngestionFailure w.db (job.failure deps) }
      some (w.record [job.outcome "rejected_clock"], .returned job)
  | .resolving job call =>
      (call.step w.toStores).map fun (stores, call) =>
        ({ w with toStores := stores }, afterResolve job call)
  | .upsert job shot =>
      (upsertIfNew w.db shot).map fun (db, result) =>
        let w := { w with db }
        if result.inserted then (w, .lookup job shot result.canonical_shot_id)
        else (w.record [job.outcome "duplicate_exact"], .returned job)
  | .lookup job shot canonicalShotId =>
      match originCandidates deps.sha256 w.db shot.toShotWithoutPayload with
      | .error _ => none
      | .ok [] => some (w.record [job.outcome "accepted", job.lag w.db.now], .returned job)
      | .ok (row :: rows) => (row :: rows)[k]?.map fun origin =>
          (w, .flag job shot canonicalShotId origin.canonical_shot_id)
  | .flag job shot canonicalShotId origin =>
      let w := { w with db := flagDuplicate w.db shot.canonical_shot_id origin }
      some (w.record [.nearDuplicates job.normalisedShot.vendor, job.outcome "duplicate_near"],
        .patchOutbox job canonicalShotId origin)
  | .patchOutbox job canonicalShotId origin =>
      (updateOutboxEventDuplicateOf w.db canonicalShotId origin).map fun db =>
        (World.record { w with db } [job.lag db.now], .returned job)
  | .returned _ => none
  | .failed _ => none

/-- The attempt ends with an error, before its next step has any effect. -/
def ProcessState.fail : ProcessState → Option ProcessState
  | .recordFailure job => some (.failed job)
  | .resolving job _ => some (.failed job)
  | .upsert job _ => some (.failed job)
  | .lookup job _ _ => some (.failed job)
  | .flag job _ _ _ => some (.failed job)
  | .patchOutbox job _ _ => some (.failed job)
  | .returned _ => none
  | .failed _ => none

/-! ### What a step is -/

/-- The steps of an attempt, one by one. The patch of an event is none of them,
as the database refuses it. -/
inductive ProcessStep (deps : Deps) (w : World) (k : ℕ) :
    ProcessState → World → ProcessState → Prop
  | recordFailure (job : ShotJob) :
      ProcessStep deps w k (.recordFailure job)
        (World.record { w with db := recordIngestionFailure w.db (job.failure deps) }
          [job.outcome "rejected_clock"]) (.returned job)
  | resolving (job : ShotJob) {call call' : ResolveState} {stores : Stores}
      (hcall : call.step w.toStores = some (stores, call')) :
      ProcessStep deps w k (.resolving job call) { w with toStores := stores }
        (afterResolve job call')
  | duplicate (job : ShotJob) {shot : NormalisedShot} {db : Database} {id : String}
      (hupsert : upsertIfNew w.db shot = some (db, ⟨false, id⟩)) :
      ProcessStep deps w k (.upsert job shot)
        (World.record { w with db := db } [job.outcome "duplicate_exact"]) (.returned job)
  | inserted (job : ShotJob) {shot : NormalisedShot} {db : Database} {id : String}
      (hupsert : upsertIfNew w.db shot = some (db, ⟨true, id⟩)) :
      ProcessStep deps w k (.upsert job shot) { w with db := db } (.lookup job shot id)
  | accepted (job : ShotJob) {shot : NormalisedShot} (id : String)
      (hnone : originCandidates deps.sha256 w.db shot.toShotWithoutPayload = .ok []) :
      ProcessStep deps w k (.lookup job shot id)
        (w.record [job.outcome "accepted", job.lag w.db.now]) (.returned job)
  | choose (job : ShotJob) {shot origin : NormalisedShot} (id : String)
      {rows : List NormalisedShot}
      (hrows : originCandidates deps.sha256 w.db shot.toShotWithoutPayload = .ok rows)
      (horigin : rows[k]? = some origin) :
      ProcessStep deps w k (.lookup job shot id) w (.flag job shot id origin.canonical_shot_id)
  | flag (job : ShotJob) (shot : NormalisedShot) (id origin : String) :
      ProcessStep deps w k (.flag job shot id origin)
        (World.record { w with db := flagDuplicate w.db shot.canonical_shot_id origin }
          [.nearDuplicates job.normalisedShot.vendor, job.outcome "duplicate_near"])
        (.patchOutbox job id origin)

theorem ProcessState.step_cases {deps : Deps} {w w' : World} {k : ℕ} {s s' : ProcessState}
    (h : s.step deps w k = some (w', s')) : ProcessStep deps w k s w' s' := by
  cases s with
  | recordFailure job =>
      obtain ⟨rfl, rfl⟩ := Prod.mk.inj (Option.some.inj h)
      exact .recordFailure job
  | resolving job call =>
      obtain ⟨⟨stores, call'⟩, hcall, heq⟩ := Option.map_eq_some_iff.mp h
      obtain ⟨rfl, rfl⟩ := Prod.mk.inj heq
      exact .resolving job hcall
  | upsert job shot =>
      obtain ⟨⟨db, ⟨inserted, id⟩⟩, hupsert, heq⟩ := Option.map_eq_some_iff.mp h
      cases inserted with
      | false =>
          obtain ⟨rfl, rfl⟩ := Prod.mk.inj heq
          exact .duplicate job hupsert
      | true =>
          obtain ⟨rfl, rfl⟩ := Prod.mk.inj heq
          exact .inserted job hupsert
  | lookup job shot id =>
      rw [ProcessState.step] at h
      split at h
      · exact absurd h (by simp)
      · rename_i hnone
        obtain ⟨rfl, rfl⟩ := Prod.mk.inj (Option.some.inj h)
        exact .accepted job id hnone
      · rename_i row rows hrows
        obtain ⟨origin, horigin, heq⟩ := Option.map_eq_some_iff.mp h
        obtain ⟨rfl, rfl⟩ := Prod.mk.inj heq
        exact .choose job id hrows horigin
  | flag job shot id origin =>
      obtain ⟨rfl, rfl⟩ := Prod.mk.inj (Option.some.inj h)
      exact .flag job shot id origin
  | patchOutbox job id origin =>
      rw [ProcessState.step, updateOutboxEventDuplicateOf_refused] at h
      exact absurd h (by simp)
  | returned job => exact absurd h (by simp [ProcessState.step])
  | failed job => exact absurd h (by simp [ProcessState.step])

theorem ProcessState.fail_cases {s s' : ProcessState} (h : s.fail = some s') :
    ∃ job, s' = .failed job := by
  cases s with
  | returned job => exact absurd h (by simp [ProcessState.fail])
  | failed job => exact absurd h (by simp [ProcessState.fail])
  | _ => exact ⟨_, (Option.some.inj h).symm⟩

end PureplayIngest.Ingestion
