import PureplayIngest.Identity.PairEffect
import PureplayIngest.Ingestion.DuplicateLinks

/-!
Retries of one job.

An attempt can stop after every step, because it fails or because its worker
crashes, and the job is then run again from the start. A retry finds the row
an earlier attempt has inserted and returns at once. So the flag of the row is
set by the attempt that inserted it or not at all. An attempt that sets it ends
with an error all the same, as the database refuses its last statement, and the
job is completed by a retry.
-/

namespace PureplayIngest

open Shared.Domain Shared.Kysely Identity Ingestion Lib Webhooks

namespace Ingestion

/-- The row is inserted, and may still be flagged. -/
def ProcessState.afterInsert : ProcessState → Bool
  | .lookup _ _ _ => true
  | .flag _ _ _ _ => true
  | _ => false

def ProcessState.hasReturned : ProcessState → Bool
  | .returned _ => true
  | _ => false

def ProcessState.isOver : ProcessState → Bool
  | .returned _ => true
  | .failed _ => true
  | _ => false

/-- The next statement cannot succeed: the database refuses it, or making it throws. -/
def ProcessState.throws (deps : Deps) (w : World) : ProcessState → Bool
  | .upsert _ shot => (upsertIfNew w.db shot).isNone
  | .lookup _ shot _ =>
      (originCandidates deps.sha256 w.db shot.toShotWithoutPayload).toOption.isNone
  | .patchOutbox _ id origin => (updateOutboxEventDuplicateOf w.db id origin).isNone
  | _ => false

/-- What can happen while a job is being processed. An attempt is stopped from
outside, or ends with an error of its own. -/
inductive RetryAction
  | step (k : ℕ)
  | throw
  | restart
  | event (x : Event)

/-- The attempts at one job, with nothing else running. -/
def retries (deps : Deps) (job : ShotJob) : System (World × ProcessState) RetryAction where
  init c := c.2 = process job
  exec c a :=
    match a with
    | .step k => c.2.step deps c.1 k
    | .throw => if c.2.throws deps c.1 then c.2.fail.map fun s => (c.1, s) else none
    | .restart => some (c.1, process job)
    | .event x => (Service.event c.1 x).map fun w => (w, c.2)

def NoRestart (_ : World × ProcessState) (a : RetryAction) : Prop := a ≠ .restart

/-- No attempt is stopped between its insert and its flag. -/
def NoLateRestart (c : World × ProcessState) (a : RetryAction) : Prop :=
  a = .restart → c.2.afterInsert = false

/-! ### The tables, as far as the shot is concerned -/

def Tables.rowsOf (t : Tables) (key : Vendor × String) : List NormalisedShot :=
  t.shots.filter fun row => shotKey row.toShotWithoutPayload = key

def Tables.payloadsOf (t : Tables) (canonicalShotId : String) : List ShotWithoutPayload :=
  (t.events.filter fun event => event.1 = "shot.persisted" ∧
    event.2.canonical_shot_id = canonicalShotId).map (·.2)

/-- The row of the shot and the payload of its event are the same. -/
def SameResult (shot : NormalisedShot) (db db' : Database) : Prop :=
  (tablesOf db).rowsOf (shotKey shot.toShotWithoutPayload) =
      (tablesOf db').rowsOf (shotKey shot.toShotWithoutPayload) ∧
    (tablesOf db).payloadsOf shot.canonical_shot_id =
      (tablesOf db').payloadsOf shot.canonical_shot_id

theorem SameResult.of_tables {shot : NormalisedShot} {db db' : Database}
    (h : tablesOf db = tablesOf db') : SameResult shot db db' := by
  rw [SameResult, h]
  exact ⟨rfl, rfl⟩

/-- How far the job has come, with the row it inserted and the origin it picked. -/
inductive Stage
  | untouched
  | inserted (row : NormalisedShot)
  | flagged (row : NormalisedShot) (origin : String)

/-- The database at a stage, from that before the job. -/
def Stage.db (db : Database) : Stage → Database
  | .untouched => db
  | .inserted row => Database.insertShot db row
  | .flagged row origin => flagDuplicate (Database.insertShot db row) row.canonical_shot_id origin

theorem tablesOf_flagDuplicate (db : Database) (id origin : String) :
    tablesOf (flagDuplicate db id origin) = ⟨(tablesOf db).shots.map fun row =>
      if row.canonical_shot_id = id then { row with duplicate_of := some origin } else row,
      (tablesOf db).events⟩ := rfl

/-! ### What a job can have done -/

def ShotJob.pair (job : ShotJob) : Vendor × String :=
  (job.normalisedShot.vendor, job.normalisedShot.vendor_user_id)

def ShotJob.skewed (job : ShotJob) : Bool :=
  hasExcessiveClockSkew job.normalisedShot.captured_at_utc job.receivedAtUtc

variable (deps : Deps) (w₀ : World) (job : ShotJob)

/-- The row is the job's shot with a user it can be resolved to: the one cached
at the start, or the one the table has. -/
def Resolves (row : NormalisedShot) : Prop :=
  (∃ s, w₀.cached job.pair = some (.text s) ∧
    row = resolvedShot job.normalisedShot (if s = "" then none else some s)) ∨
  row = resolvedShot job.normalisedShot (mapping w₀.db job.pair)

/-- An attempt at the job can insert the row. -/
structure Inserts (row : NormalisedShot) : Prop where
  skewed : job.skewed = false
  resolves : Resolves w₀ job row
  upsert : upsertIfNew w₀.db row =
    some (Database.insertShot w₀.db row, ⟨true, row.canonical_shot_id⟩)

/-- An attempt at the job returns without inserting anything. -/
def Refused : Prop :=
  job.skewed = true ∨ job.skewed = false ∧ ∃ row existing, Resolves w₀ job row ∧
    upsertIfNew w₀.db row = some (w₀.db, ⟨false, existing⟩)

/-- The origin query can return the row with this id. -/
def Picks (origin : String) : Prop :=
  ∃ (rows : List NormalisedShot) (k : ℕ) (row : NormalisedShot),
    originCandidates deps.sha256 w₀.db job.normalisedShot.toShotWithoutPayload = .ok rows ∧
      rows[k]? = some row ∧ origin = row.canonical_shot_id

/-- The origin query returns no row for the shot. -/
def NoOrigin : Prop := ∀ origin, ¬ Picks deps w₀ job origin

namespace Stage

def Valid : Stage → Prop
  | .untouched => True
  | .inserted row => Inserts w₀ job row
  | .flagged row origin => Inserts w₀ job row ∧ Picks deps w₀ job origin

/-- Nothing remains to be done that an attempt could do. -/
def Complete : Stage → Prop
  | .untouched => True
  | .inserted _ => NoOrigin deps w₀ job
  | .flagged _ _ => True

def row? : Stage → Option NormalisedShot
  | .untouched => none
  | .inserted row => some row
  | .flagged row _ => some row

end Stage

/-- The world at a stage of the job. -/
structure AtStage (stage : Stage) (w : World) : Prop where
  tables : tablesOf w.db = tablesOf (stage.db w₀.db)
  identities : w.db.user_identities = w₀.db.user_identities
  cache : w.cached job.pair = w₀.cached job.pair ∨ w.cached job.pair = none ∨
    w.cached job.pair = some (.text ((mapping w₀.db job.pair).getD ""))

/-- An attempt that has not inserted a row, at a stage of the job. -/
inductive Attempt (stage : Stage) : ProcessState → Prop
  | recordFailure (hskew : job.skewed = true) : Attempt stage (.recordFailure job)
  | get (hskew : job.skewed = false) : Attempt stage (.resolving job (.get job.pair))
  | select (hskew : job.skewed = false) : Attempt stage (.resolving job (.select job.pair))
  | set (hskew : job.skewed = false) :
      Attempt stage (.resolving job (.set job.pair (mapping w₀.db job.pair)))
  | upsert (row : NormalisedShot) (hskew : job.skewed = false) (hrow : Resolves w₀ job row) :
      Attempt stage (.upsert job row)
  | returned (hreason : (∃ row, stage.row? = some row) ∨ Refused w₀ job) :
      Attempt stage (.returned job)
  | failed : Attempt stage (.failed job)

/-- Where an attempt can be at a stage of the job; `P` is what is known of the
stage when the attempt has not inserted the row itself. -/
inductive Phase (P : Stage → Prop) : Stage → ProcessState → Prop
  | attempt {stage : Stage} {s : ProcessState} (hstage : P stage) (h : Attempt w₀ job stage s) :
      Phase P stage s
  | lookup (row : NormalisedShot) :
      Phase P (.inserted row) (.lookup job row row.canonical_shot_id)
  | accepted (row : NormalisedShot) (hnone : NoOrigin deps w₀ job) :
      Phase P (.inserted row) (.returned job)
  | flag (row : NormalisedShot) (origin : String) (hpick : Picks deps w₀ job origin) :
      Phase P (.inserted row) (.flag job row row.canonical_shot_id origin)
  | patchOutbox (row : NormalisedShot) (origin : String) :
      Phase P (.flagged row origin) (.patchOutbox job row.canonical_shot_id origin)
  | thrown {stage : Stage} (hcomplete : stage.Complete deps w₀ job) : Phase P stage (.failed job)

/-- What holds while a job is being processed. -/
def RetryInv (P : Stage → Prop) (c : World × ProcessState) : Prop :=
  ∃ stage : Stage, stage.Valid deps w₀ job ∧ AtStage w₀ job stage c.1 ∧
    Phase deps w₀ job P stage c.2

variable {deps : Deps} {w₀ : World} {job : ShotJob} {w w' : World} {stage : Stage}

/-! ### What the row of a job is -/

theorem Resolves.eq {row : NormalisedShot} (h : Resolves w₀ job row) :
    ∃ c, row = { job.normalisedShot with canonical_user_id := c } := by
  obtain ⟨s, _, rfl⟩ | rfl := h
  · exact resolvedShot_eq _ _
  · exact resolvedShot_eq _ _

theorem shotKey_resolves {row : NormalisedShot} (h : Resolves w₀ job row) :
    shotKey row.toShotWithoutPayload = shotKey job.normalisedShot.toShotWithoutPayload := by
  obtain ⟨c, rfl⟩ := h.eq
  rfl

theorem id_resolves {row : NormalisedShot} (h : Resolves w₀ job row) :
    row.canonical_shot_id = job.normalisedShot.canonical_shot_id := by
  obtain ⟨c, rfl⟩ := h.eq
  rfl

theorem duplicateOf_resolves {row : NormalisedShot} (h : Resolves w₀ job row) :
    row.duplicate_of = job.normalisedShot.duplicate_of := by
  obtain ⟨c, rfl⟩ := h.eq
  rfl

/-- What the origin query compares is that of the job's shot. -/
theorem originCandidates_resolves {row : NormalisedShot} (h : Resolves w₀ job row) (db : Database) :
    originCandidates deps.sha256 db row.toShotWithoutPayload =
      originCandidates deps.sha256 db job.normalisedShot.toShotWithoutPayload := by
  obtain ⟨c, rfl⟩ := h.eq
  rfl

/-- The row itself is no origin for itself. -/
theorem originCandidates_append {sha256 : String → String} {db db' : Database}
    {row : NormalisedShot} (h : db'.shots = db.shots ++ [row]) :
    originCandidates sha256 db' row.toShotWithoutPayload =
      originCandidates sha256 db row.toShotWithoutPayload := by
  have hrows (lower upper prev : ℤ) :
      originRows sha256 db' row.toShotWithoutPayload lower upper prev =
      originRows sha256 db row.toShotWithoutPayload lower upper prev := by
    simp [originRows, h, List.filter_append]
  simp only [originCandidates, hrows]

/-- At the stage where the row is inserted the query finds what it finds before. -/
theorem originCandidates_inserted (deps : Deps) {row : NormalisedShot} (hrow : Resolves w₀ job row)
    (hw : AtStage w₀ job (.inserted row) w) :
    originCandidates deps.sha256 w.db row.toShotWithoutPayload =
      originCandidates deps.sha256 w₀.db job.normalisedShot.toShotWithoutPayload := by
  have hshots : w.db.shots = w₀.db.shots ++ [row] := by
    have htables := congrArg Tables.shots hw.tables
    rwa [Stage.db, tablesOf_insertShot] at htables
  rw [originCandidates_append hshots, originCandidates_resolves hrow]

/-- A user the cache answers with is as good as the one the table has. -/
theorem resolvedShot_getD (shot : NormalisedShot) (user : Option String) :
    resolvedShot shot (if user.getD "" = "" then none else some (user.getD "")) =
      resolvedShot shot user := by
  cases user with
  | none => rfl
  | some c =>
      by_cases hc : c = ""
      · simp [resolvedShot, hc]
      · simp [hc]

/-! ### Steps -/

theorem process_of_not_skewed (h : job.skewed = false) :
    process job = .resolving job (.get job.pair) := by
  rw [ShotJob.skewed] at h
  simp [process, h, resolveCanonicalUserId, ShotJob.pair]

theorem process_of_skewed (h : job.skewed = true) : process job = .recordFailure job := by
  rw [ShotJob.skewed] at h
  simp [process, h]

/-- Every attempt starts before its insert. -/
theorem process_attempts (stage : Stage) : Attempt w₀ job stage (process job) := by
  cases h : job.skewed with
  | false => exact process_of_not_skewed h ▸ .get h
  | true => exact process_of_skewed h ▸ .recordFailure h

/-- A row that was inserted is in the table, under the job's key. -/
theorem AtStage.stored {row : NormalisedShot} (hw : AtStage w₀ job stage w)
    (hvalid : stage.Valid deps w₀ job) (hrow : stage.row? = some row) :
    ∃ stored ∈ w.db.shots, shotKey stored.toShotWithoutPayload =
      shotKey job.normalisedShot.toShotWithoutPayload := by
  have hshots : w.db.shots = (stage.db w₀.db).shots := congrArg Tables.shots hw.tables
  rw [hshots]
  have hlast : row ∈ (Database.insertShot w₀.db row).shots := by
    simp [Database.insertShot, Database.insertOutboxEvent]
  have hflag (origin : String) : ∃ stored ∈ (flagDuplicate (Database.insertShot w₀.db row)
      row.canonical_shot_id origin).shots, stored.toShotWithoutPayload =
        { row.toShotWithoutPayload with duplicate_of := some origin } :=
    ⟨_, List.mem_map_of_mem hlast, by rw [if_pos rfl]⟩
  cases stage with
  | untouched => exact absurd hrow (by simp [Stage.row?])
  | inserted r =>
      obtain rfl := Option.some.inj hrow
      exact ⟨r, hlast, shotKey_resolves hvalid.resolves⟩
  | flagged r origin =>
      obtain rfl := Option.some.inj hrow
      obtain ⟨stored, hstored, heq⟩ := hflag origin
      refine ⟨stored, hstored, ?_⟩
      rw [heq]
      exact shotKey_resolves hvalid.1.resolves

/-- What the insert of an attempt does at a stage: the first one inserts, or
finds another row; a later one finds the row of the first. -/
theorem upsert_step {row : NormalisedShot} {db : Database} {result : UpsertResult}
    (hw : AtStage w₀ job stage w) (hvalid : stage.Valid deps w₀ job)
    (hskew : job.skewed = false) (hrow : Resolves w₀ job row)
    (hupsert : upsertIfNew w.db row = some (db, result)) :
    (result.inserted = false ∧ db = w.db ∧
      ((∃ r, stage.row? = some r) ∨ Refused w₀ job)) ∨
    (result.inserted = true ∧ stage = .untouched ∧ Inserts w₀ job row ∧
      db = Database.insertShot w.db row ∧ result.canonical_shot_id = row.canonical_shot_id) := by
  obtain ⟨_, hcases⟩ := upsertIfNew_cases hupsert
  cases hr : stage.row? with
  | some r =>
      obtain ⟨stored, hmem, hkey⟩ := hw.stored hvalid hr
      cases hcases with
      | duplicate existing _ _ heq => exact .inl ⟨rfl, heq, .inl ⟨r, rfl⟩⟩
      | inserted hfresh _ _ =>
          exact absurd (hkey.trans (shotKey_resolves hrow).symm) (hfresh stored hmem)
  | none =>
      have hstage : stage = .untouched := by
        cases stage <;> simp [Stage.row?] at hr ⊢
      subst hstage
      have hshots : w₀.db.shots = w.db.shots := (congrArg Tables.shots hw.tables).symm
      have hstart := upsertIfNew_of_shots hshots row
      rw [hupsert] at hstart
      cases hcases with
      | duplicate existing _ _ heq =>
          exact .inl ⟨rfl, heq, .inr (.inr ⟨hskew, row, existing.canonical_shot_id, hrow, hstart⟩)⟩
      | inserted _ _ heq => exact .inr ⟨rfl, rfl, ⟨hskew, hrow, hstart⟩, heq, rfl⟩

/-- Redis commands of an attempt keep a stage. -/
theorem AtStage.resolve {call call' : ResolveState} {stores : Stores}
    (hw : AtStage w₀ job stage w) (hskew : job.skewed = false)
    (hcall : call = .get job.pair ∨ call = .select job.pair ∨
      call = .set job.pair (mapping w₀.db job.pair))
    (hstep : call.step w.toStores = some (stores, call')) :
    AtStage w₀ job stage { w with toStores := stores } ∧
      Attempt w₀ job stage (afterResolve job call') := by
  have hmapping : mapping w.db job.pair = mapping w₀.db job.pair := mapping_congr hw.identities _
  obtain rfl | rfl | rfl := hcall
  · rw [ResolveState.step] at hstep
    split at hstep
    · rename_i cached hcached
      obtain ⟨rfl, rfl⟩ := Prod.mk.inj (Option.some.inj hstep)
      refine ⟨hw, .upsert _ hskew ?_⟩
      have hentry : w.cached job.pair = some (.text cached) := hcached
      obtain h | h | h := hw.cache
      · exact .inl ⟨cached, h.symm.trans hentry, rfl⟩
      · exact absurd (h.symm.trans hentry) (by simp)
      · obtain rfl : (mapping w₀.db job.pair).getD "" = cached := by
          simpa using h.symm.trans hentry
        exact .inr (resolvedShot_getD _ _)
    · exact absurd hstep (by simp)
    · obtain ⟨rfl, rfl⟩ := Prod.mk.inj (Option.some.inj hstep)
      exact ⟨hw, .select hskew⟩
  · obtain ⟨rfl, rfl⟩ := Prod.mk.inj (Option.some.inj hstep)
    rw [hmapping]
    exact ⟨hw, .set hskew⟩
  · obtain ⟨rfl, rfl⟩ := Prod.mk.inj (Option.some.inj hstep)
    refine ⟨⟨hw.tables, hw.identities, .inr (.inr ?_)⟩, .upsert _ hskew (.inr rfl)⟩
    exact (Redis.set_identity w.redis job.pair job.pair _).trans (if_pos rfl)

/-- A step of an attempt that has not inserted: it inserts, or the stage stays. -/
theorem attempt_step {s s' : ProcessState} {k : ℕ} (hw : AtStage w₀ job stage w)
    (hvalid : stage.Valid deps w₀ job) (hs : Attempt w₀ job stage s)
    (hstep : s.step deps w k = some (w', s')) :
    (AtStage w₀ job stage w' ∧ Attempt w₀ job stage s') ∨
    (stage = .untouched ∧ ∃ row, Inserts w₀ job row ∧ AtStage w₀ job (.inserted row) w' ∧
      s' = .lookup job row row.canonical_shot_id) := by
  cases hs with
  | recordFailure hskew =>
      obtain ⟨rfl, rfl⟩ := Prod.mk.inj (Option.some.inj hstep)
      exact .inl ⟨⟨hw.tables, hw.identities, hw.cache⟩, .returned (.inr (.inl hskew))⟩
  | get hskew =>
      cases ProcessState.step_cases hstep with
      | resolving _ hcall => exact .inl (hw.resolve hskew (.inl rfl) hcall)
  | select hskew =>
      cases ProcessState.step_cases hstep with
      | resolving _ hcall => exact .inl (hw.resolve hskew (.inr (.inl rfl)) hcall)
  | set hskew =>
      cases ProcessState.step_cases hstep with
      | resolving _ hcall => exact .inl (hw.resolve hskew (.inr (.inr rfl)) hcall)
  | upsert row hskew hrow =>
      cases ProcessState.step_cases hstep with
      | duplicate _ hupsert =>
          -- A conflict on the key is with the row an earlier attempt has inserted, or an older one.
          obtain ⟨_, rfl, hreason⟩ | ⟨h, _⟩ := upsert_step hw hvalid hskew hrow hupsert
          · exact .inl ⟨⟨hw.tables, hw.identities, hw.cache⟩, .returned hreason⟩
          · exact absurd h (by simp)
      | inserted _ hupsert =>
          obtain ⟨h, _⟩ | ⟨_, rfl, hinserts, rfl, rfl⟩ := upsert_step hw hvalid hskew hrow hupsert
          · exact absurd h (by simp)
          · refine .inr ⟨rfl, row, hinserts, ⟨?_, hw.identities, hw.cache⟩, rfl⟩
            rw [Stage.db, tablesOf_insertShot, tablesOf_insertShot, hw.tables, Stage.db]
  | _ => exact absurd hstep (by simp [ProcessState.step])

/-- An attempt that has not inserted ends with an error. -/
theorem attempt_fail {s s' : ProcessState} (hs : Attempt w₀ job stage s)
    (hfail : s.fail = some s') : Attempt w₀ job stage s' := by
  cases hs with
  | returned hreason => exact absurd hfail (by simp [ProcessState.fail])
  | failed => exact absurd hfail (by simp [ProcessState.fail])
  | _ =>
      obtain rfl := Option.some.inj hfail
      exact .failed

/-- The flag takes the tables to the next stage. -/
theorem AtStage.flag {row : NormalisedShot} (origin : String)
    (hw : AtStage w₀ job (.inserted row) w) (metrics : List Metric) :
    AtStage w₀ job (.flagged row origin) (World.record
      { w with db := flagDuplicate w.db row.canonical_shot_id origin } metrics) := by
  refine ⟨?_, hw.identities, hw.cache⟩
  show tablesOf (flagDuplicate w.db row.canonical_shot_id origin) = _
  rw [Stage.db, tablesOf_flagDuplicate, tablesOf_flagDuplicate, hw.tables, Stage.db]

/-- The environment leaves a stage as it is. -/
theorem AtStage.event {x : Event} (hw : AtStage w₀ job stage w)
    (hevent : Service.event w x = some w') : AtStage w₀ job stage w' := by
  cases x with
  | expire key =>
      obtain rfl := Option.some.inj hevent
      refine ⟨hw.tables, hw.identities, ?_⟩
      by_cases hkey : identityCacheKey job.pair.1 job.pair.2 = key
      · exact .inr (.inl (by simp [Stores.cached, Redis.del, hkey]))
      · have hcached : Stores.cached { w.toStores with redis := w.redis.del [key] } job.pair =
            w.cached job.pair := by simp [Stores.cached, Redis.del, hkey]
        rw [hcached]
        exact hw.cache
  | tick ms =>
      obtain rfl := Option.some.inj hevent
      exact ⟨hw.tables, hw.identities, hw.cache⟩

variable {P : Stage → Prop} {c c' : World × ProcessState} {a : RetryAction}

theorem throw_cases {s : ProcessState} (h : (retries deps job).exec (w, s) .throw = some c') :
    s.throws deps w = true ∧ ∃ s', s.fail = some s' ∧ c' = (w, s') := by
  have hexec : (if s.throws deps w then s.fail.map fun s => (w, s) else none) = some c' := h
  split at hexec
  · rename_i hthrows
    obtain ⟨s', hfail, rfl⟩ := Option.map_eq_some_iff.mp hexec
    exact ⟨hthrows, s', hfail, rfl⟩
  · exact absurd hexec (by simp)

theorem RetryInv.attempt {k : ℕ} {s s' : ProcessState}
    (hinv : RetryInv deps w₀ job P (w, s)) (hstep : s.step deps w k = some (w', s')) :
    RetryInv deps w₀ job P (w', s') := by
  obtain ⟨stage, hvalid, hw, hphase⟩ := hinv
  cases hphase with
  | attempt hstage hs =>
      obtain ⟨hw', hs'⟩ | ⟨rfl, row, hinserts, hw', rfl⟩ := attempt_step hw hvalid hs hstep
      · exact ⟨stage, hvalid, hw', .attempt hstage hs'⟩
      · exact ⟨.inserted row, hinserts, hw', .lookup row⟩
  | lookup row =>
      have hquery := originCandidates_inserted deps hvalid.resolves hw
      cases ProcessState.step_cases hstep with
      | accepted _ _ hnone =>
          refine ⟨.inserted row, hvalid, ⟨hw.tables, hw.identities, hw.cache⟩, .accepted row ?_⟩
          rintro origin ⟨rows, k, found, hrows, hfound, _⟩
          obtain rfl : rows = [] := Except.ok.inj (hrows.symm.trans (hquery.symm.trans hnone))
          exact absurd hfound (by simp)
      | choose _ _ hrows horigin =>
          exact ⟨.inserted row, hvalid, hw,
            .flag row _ ⟨_, _, _, hquery.symm.trans hrows, horigin, rfl⟩⟩
  | accepted row hnone => exact absurd hstep (by simp [ProcessState.step])
  | flag row origin hpick =>
      obtain ⟨rfl, rfl⟩ := Prod.mk.inj (Option.some.inj hstep)
      exact ⟨.flagged row origin, ⟨hvalid, hpick⟩, hw.flag origin _, .patchOutbox row origin⟩
  | patchOutbox row origin => cases ProcessState.step_cases hstep
  | thrown hcomplete => exact absurd hstep (by simp [ProcessState.step])

theorem RetryInv.throw {s s' : ProcessState} (hinv : RetryInv deps w₀ job P (w, s))
    (hthrows : s.throws deps w = true) (hfail : s.fail = some s') :
    RetryInv deps w₀ job P (w, s') := by
  obtain ⟨stage, hvalid, hw, hphase⟩ := hinv
  cases hphase with
  | attempt hstage hs => exact ⟨stage, hvalid, hw, .attempt hstage (attempt_fail hs hfail)⟩
  | lookup row =>
      obtain rfl := Option.some.inj hfail
      refine ⟨.inserted row, hvalid, hw, .thrown ?_⟩
      rintro origin ⟨rows, k, found, hrows, _⟩
      have hquery := (originCandidates_inserted deps hvalid.resolves hw).trans hrows
      rw [ProcessState.throws, hquery] at hthrows
      exact absurd hthrows (by simp [Except.toOption])
  | patchOutbox row origin =>
      obtain rfl := Option.some.inj hfail
      exact ⟨.flagged row origin, hvalid, hw, .thrown trivial⟩
  | flag row origin hpick => exact absurd hthrows (by simp [ProcessState.throws])
  | accepted row hnone => exact absurd hthrows (by simp [ProcessState.throws])
  | thrown hcomplete => exact absurd hthrows (by simp [ProcessState.throws])

/-- An attempt cut off before the row is there leaves a stage that retries may find. -/
theorem RetryInv.restart {s : ProcessState} (hinv : RetryInv deps w₀ job P (w, s))
    (hcomplete : ∀ stage, stage.Complete deps w₀ job → P stage)
    (hrestart : s.afterInsert = false ∨ ∀ stage, P stage) :
    RetryInv deps w₀ job P (w, process job) := by
  obtain ⟨stage, hvalid, hw, hphase⟩ := hinv
  refine ⟨stage, hvalid, hw, .attempt ?_ (process_attempts stage)⟩
  obtain hbefore | hall := hrestart
  · cases hphase with
    | attempt hstage _ => exact hstage
    | accepted row hnone => exact hcomplete _ hnone
    | patchOutbox row origin => exact hcomplete _ trivial
    | thrown hdone => exact hcomplete _ hdone
    | _ => simp [ProcessState.afterInsert] at hbefore
  · exact hall stage

/-- Where no restart is late, or nothing is claimed of the stages, the invariant is kept. -/
theorem RetryInv.step (hinv : RetryInv deps w₀ job P c)
    (hcomplete : ∀ stage, stage.Complete deps w₀ job → P stage)
    (hrestart : NoLateRestart c a ∨ ∀ stage, P stage)
    (hexec : (retries deps job).exec c a = some c') : RetryInv deps w₀ job P c' := by
  obtain ⟨w, s⟩ := c
  cases a with
  | step k => exact RetryInv.attempt hinv hexec
  | throw =>
      obtain ⟨hthrows, s', hfail, rfl⟩ := throw_cases hexec
      exact RetryInv.throw hinv hthrows hfail
  | restart =>
      obtain rfl := Option.some.inj hexec
      exact RetryInv.restart hinv hcomplete (hrestart.imp_left fun hlate => hlate rfl)
  | event x =>
      obtain ⟨w', hevent, rfl⟩ := Option.map_eq_some_iff.mp hexec
      obtain ⟨stage, hvalid, hw, hphase⟩ := hinv
      exact ⟨stage, hvalid, hw.event hevent, hphase⟩

theorem retryInv_start (hcomplete : ∀ stage : Stage, stage.Complete deps w₀ job → P stage) :
    RetryInv deps w₀ job P (w₀, process job) :=
  ⟨.untouched, trivial, ⟨rfl, rfl, .inl rfl⟩, .attempt (hcomplete _ trivial) (process_attempts _)⟩

/-- The row was inserted by an attempt that did not finish, and no later one takes it up. -/
def LateInv (w₀ : World) (job : ShotJob) (stage : Stage)
    (c : World × ProcessState) : Prop :=
  AtStage w₀ job stage c.1 ∧ Attempt w₀ job stage c.2

theorem LateInv.step (hinv : LateInv w₀ job stage c) (hvalid : stage.Valid deps w₀ job)
    (hrow : stage ≠ .untouched) (hexec : (retries deps job).exec c a = some c') :
    LateInv w₀ job stage c' := by
  obtain ⟨hw, hs⟩ := hinv
  cases a with
  | step k =>
      obtain ⟨hw', hs'⟩ | ⟨huntouched, _⟩ := attempt_step hw hvalid hs hexec
      · exact ⟨hw', hs'⟩
      · exact absurd huntouched hrow
  | throw =>
      obtain ⟨_, s', hfail, rfl⟩ := throw_cases hexec
      exact ⟨hw, attempt_fail hs hfail⟩
  | restart =>
      obtain rfl := Option.some.inj hexec
      exact ⟨hw, process_attempts stage⟩
  | event x =>
      obtain ⟨w', hevent, rfl⟩ := Option.map_eq_some_iff.mp hexec
      exact ⟨hw.event hevent, hs⟩

/-! ### What an uninterrupted attempt can do -/

theorem run_step {s s' : ProcessState} (k : ℕ) (h : s.step deps w k = some (w', s')) :
    (retries deps job).Run NoRestart (w, s) [.step k] (w', s') :=
  .cons (by simp [NoRestart]) h (.nil _)

theorem run_throw {s s' : ProcessState} (hthrows : s.throws deps w = true)
    (hfail : s.fail = some s') :
    (retries deps job).Run NoRestart (w, s) [.throw] (w, s') := by
  refine .cons (by simp [NoRestart]) ?_ (.nil _)
  show (if s.throws deps w then s.fail.map fun s => (w, s) else none) = some (w, s')
  rw [if_pos hthrows, hfail, Option.map_some]

/-- An attempt reaches its insert with each row the shot can be resolved to. -/
theorem exists_run_upsert (deps : Deps) {row : NormalisedShot} (hskew : job.skewed = false)
    (hrow : Resolves w₀ job row) :
    ∃ bs w, (retries deps job).Run NoRestart (w₀, process job) bs (w, .upsert job row) ∧
      AtStage w₀ job .untouched w := by
  rw [process_of_not_skewed hskew]
  obtain ⟨s, hcached, rfl⟩ | rfl := hrow
  · refine ⟨_, w₀, run_step 0 ?_, rfl, rfl, .inl rfl⟩
    have hentry : w₀.redis (identityCacheKey job.pair.1 job.pair.2) = some (.text s) := hcached
    simp only [ProcessState.step, ResolveState.step, hentry]
    rfl
  · -- Whatever is cached expires first, so that the table is asked.
    let key := identityCacheKey job.pair.1 job.pair.2
    let w₁ : World := { w₀ with redis := w₀.redis.del [key] }
    let w₂ : World := { w₁ with
      redis := w₁.redis.set key (.text ((mapping w₀.db job.pair).getD "")) }
    have hmiss : w₁.redis (identityCacheKey job.pair.1 job.pair.2) = none := by
      simp [w₁, key, Redis.del]
    have hget : (ProcessState.resolving job (.get job.pair)).step deps w₁ 0 =
        some (w₁, .resolving job (.select job.pair)) := by
      simp only [ProcessState.step, ResolveState.step, hmiss]
      rfl
    have hselect : (ProcessState.resolving job (.select job.pair)).step deps w₁ 0 =
        some (w₁, .resolving job (.set job.pair (mapping w₀.db job.pair))) := rfl
    have hset :
        (ProcessState.resolving job (.set job.pair (mapping w₀.db job.pair))).step deps w₁ 0 =
        some (w₂, .upsert job (resolvedShot job.normalisedShot (mapping w₀.db job.pair))) := rfl
    refine ⟨_, w₂, .cons (a := .event (.expire key)) (by simp [NoRestart]) rfl
      ((run_step 0 hget).append ((run_step 0 hselect).append (run_step 0 hset))), rfl, rfl, ?_⟩
    exact .inr (.inr ((Redis.set_identity w₁.redis job.pair job.pair _).trans (if_pos rfl)))

theorem exists_run_inserted (deps : Deps) {row : NormalisedShot} (h : Inserts w₀ job row) :
    ∃ bs w, (retries deps job).Run NoRestart (w₀, process job) bs
        (w, .lookup job row row.canonical_shot_id) ∧ AtStage w₀ job (.inserted row) w := by
  obtain ⟨bs, w, hrun, hw⟩ := exists_run_upsert deps h.skewed h.resolves
  have hshots : w.db.shots = w₀.db.shots := congrArg Tables.shots hw.tables
  have hupsert : upsertIfNew w.db row =
      some (Database.insertShot w.db row, ⟨true, row.canonical_shot_id⟩) := by
    rw [upsertIfNew_of_shots hshots row, h.upsert]
    rfl
  have hstep : (ProcessState.upsert job row).step deps w 0 =
      some ({ w with db := Database.insertShot w.db row },
        .lookup job row row.canonical_shot_id) := by
    simp only [ProcessState.step, hupsert, Option.map_some]
    rfl
  refine ⟨_, _, hrun.append (run_step 0 hstep), ⟨?_, hw.identities, hw.cache⟩⟩
  rw [Stage.db, tablesOf_insertShot, tablesOf_insertShot, hw.tables, Stage.db]

theorem exists_run_refused (h : Refused w₀ job) :
    ∃ bs w, (retries deps job).Run NoRestart (w₀, process job) bs (w, .returned job) ∧
      AtStage w₀ job .untouched w := by
  obtain hskew | ⟨hskew, row, existing, hrow, hupsert⟩ := h
  · rw [process_of_skewed hskew]
    exact ⟨_, _, run_step 0 rfl, rfl, rfl, .inl rfl⟩
  · obtain ⟨bs, w, hrun, hw⟩ := exists_run_upsert deps hskew hrow
    have hshots : w.db.shots = w₀.db.shots := congrArg Tables.shots hw.tables
    have hduplicate : upsertIfNew w.db row = some (w.db, ⟨false, existing⟩) := by
      rw [upsertIfNew_of_shots hshots row, hupsert]
      rfl
    have hstep : (ProcessState.upsert job row).step deps w 0 =
        some (w.record [job.outcome "duplicate_exact"], .returned job) := by
      simp only [ProcessState.step, hduplicate, Option.map_some]
      rfl
    exact ⟨_, _, hrun.append (run_step 0 hstep), hw.tables, hw.identities, hw.cache⟩

/-- An uninterrupted attempt can end with whatever stage is complete. -/
theorem exists_run_complete (hvalid : stage.Valid deps w₀ job)
    (hcomplete : stage.Complete deps w₀ job) (hreturn : stage = .untouched → Refused w₀ job) :
    ∃ bs w s, (retries deps job).Run NoRestart (w₀, process job) bs (w, s) ∧ s.isOver = true ∧
      AtStage w₀ job stage w := by
  cases stage with
  | untouched =>
      obtain ⟨bs, w, hrun, hw⟩ := exists_run_refused (hreturn rfl)
      exact ⟨bs, w, _, hrun, rfl, hw⟩
  | inserted row =>
      obtain ⟨bs, w, hrun, hw⟩ := exists_run_inserted deps hvalid
      have hquery := originCandidates_inserted deps hvalid.resolves hw
      cases hfound : originCandidates deps.sha256 w.db row.toShotWithoutPayload with
      | error e =>
          have hthrows :
              (ProcessState.lookup job row row.canonical_shot_id).throws deps w = true := by
            rw [ProcessState.throws, hfound]
            rfl
          exact ⟨_, _, _, hrun.append (run_throw hthrows rfl), rfl, hw⟩
      | ok rows =>
          obtain rfl : rows = [] := by
            refine List.eq_nil_iff_forall_not_mem.mpr fun found hmem => ?_
            obtain ⟨k, hk⟩ := List.getElem?_of_mem hmem
            exact hcomplete _ ⟨rows, k, found, hquery.symm.trans hfound, hk, rfl⟩
          have hstep : (ProcessState.lookup job row row.canonical_shot_id).step deps w 0 =
              some (w.record [job.outcome "accepted", job.lag w.db.now], .returned job) := by
            simp only [ProcessState.step, hfound]
          exact ⟨_, _, _, hrun.append (run_step 0 hstep), rfl, hw.tables, hw.identities, hw.cache⟩
  | flagged row origin =>
      obtain ⟨hinserts, rows, k, found, hrows, hfound, rfl⟩ := hvalid
      obtain ⟨bs, w, hrun, hw⟩ := exists_run_inserted deps hinserts
      have hquery := originCandidates_inserted deps hinserts.resolves hw
      have hchosen := hquery.trans hrows
      have hstep : (ProcessState.lookup job row row.canonical_shot_id).step deps w k =
          some (w, .flag job row row.canonical_shot_id found.canonical_shot_id) := by
        cases rows with
        | nil => exact absurd hfound (by simp)
        | cons first rest => simp only [ProcessState.step, hchosen, hfound, Option.map_some]
      -- The flag is set, and the patch is refused.
      exact ⟨_, _, _, hrun.append ((run_step k hstep).append ((run_step 0 rfl).append
        (run_throw rfl rfl))), rfl, hw.flag found.canonical_shot_id _⟩

/-! ### The result of a job that was retried -/

/-- An attempt that has returned without a row of the job was refused. -/
theorem Phase.refused {s : ProcessState} (h : Phase deps w₀ job P .untouched s)
    (hreturned : s.hasReturned = true) : Refused w₀ job := by
  cases h with
  | attempt _ hs =>
      cases hs with
      | returned hreason =>
          exact hreason.resolve_left fun ⟨_, hrow⟩ => absurd hrow (by simp [Stage.row?])
      | _ => exact absurd hreturned (by simp [ProcessState.hasReturned])
  | thrown hcomplete => exact absurd hreturned (by simp [ProcessState.hasReturned])

/-- What a job ends with when no attempt is stopped between insert and flag. -/
theorem stage_of_uninterrupted {bs : List RetryAction} {c : World × ProcessState}
    (hrun : (retries deps job).Run NoLateRestart (w₀, process job) bs c)
    (hover : c.2.isOver = true) :
    ∃ stage : Stage, stage.Valid deps w₀ job ∧ stage.Complete deps w₀ job ∧
      AtStage w₀ job stage c.1 ∧
      (c.2.hasReturned = true → stage = .untouched → Refused w₀ job) := by
  obtain ⟨stage, hvalid, hw, hphase⟩ := hrun.invariant
    (fun c a c' hinv hguard hexec => RetryInv.step hinv (fun _ => id) (.inl hguard) hexec)
    (retryInv_start (fun _ => id))
  refine ⟨stage, hvalid, ?_, hw, fun hreturned hstage => (hstage ▸ hphase).refused hreturned⟩
  obtain ⟨w, s⟩ := c
  cases hphase with
  | attempt hstage _ => exact hstage
  | accepted row hnone => exact hnone
  | thrown hcomplete => exact hcomplete
  | _ => exact absurd hover (by simp [ProcessState.isOver])

/-- What retries end with when there is no origin. -/
theorem stage_of_noOrigin {as : List RetryAction} {c : World × ProcessState}
    (hrun : (retries deps job).Run System.free (w₀, process job) as c)
    (hnone : NoOrigin deps w₀ job) :
    ∃ stage : Stage, stage.Valid deps w₀ job ∧ stage.Complete deps w₀ job ∧
      AtStage w₀ job stage c.1 ∧
      (c.2.hasReturned = true → stage = .untouched → Refused w₀ job) := by
  obtain ⟨stage, hvalid, hw, hphase⟩ := hrun.invariant
    (fun c a c' hinv _ hexec =>
      RetryInv.step hinv (fun _ _ => trivial) (.inr fun _ => trivial) hexec)
    (retryInv_start (P := fun _ => True) fun _ _ => trivial)
  refine ⟨stage, hvalid, ?_, hw, fun hreturned hstage => (hstage ▸ hphase).refused hreturned⟩
  cases stage with
  | untouched => trivial
  | inserted row => exact hnone
  | flagged row origin => trivial

theorem mem_rowsOf {t : Tables} {key : Vendor × String} {row : NormalisedShot} :
    row ∈ t.rowsOf key ↔ row ∈ t.shots ∧ shotKey row.toShotWithoutPayload = key := by
  simp only [Tables.rowsOf, List.mem_filter, decide_eq_true_eq]

/-- The row an attempt inserts is the only one with the key of the shot. -/
theorem Inserts.fresh {row : NormalisedShot} (h : Inserts w₀ job row) :
    ∀ old ∈ w₀.db.shots, shotKey old.toShotWithoutPayload ≠
      shotKey job.normalisedShot.toShotWithoutPayload := by
  obtain ⟨_, hcases⟩ := upsertIfNew_cases h.upsert
  cases hcases with
  | inserted hkey _ _ =>
      rw [← shotKey_resolves h.resolves]
      exact hkey

/-- When the row is flagged no row with the key of the shot is without an origin. -/
theorem flagged_of_rowsOf {row row' : NormalisedShot} {origin : String}
    (hinserts : Inserts w₀ job row)
    (hmem : row' ∈ (tablesOf (Stage.db w₀.db (.flagged row origin))).rowsOf
      (shotKey job.normalisedShot.toShotWithoutPayload)) : row'.duplicate_of = some origin := by
  rw [Stage.db, tablesOf_flagDuplicate, tablesOf_insertShot, mem_rowsOf] at hmem
  obtain ⟨hmem, hkey⟩ := hmem
  obtain ⟨old, hold, rfl⟩ := List.mem_map.mp hmem
  split at hkey
  · rename_i hid
    rw [if_pos hid]
  · rename_i hid
    obtain hold | hold := List.mem_append.mp hold
    · exact absurd hkey (hinserts.fresh old hold)
    · exact absurd (List.mem_singleton.mp hold ▸ rfl) hid

/-- An attempt stopped between its insert and its flag, when there is an origin:
no uninterrupted attempt leaves what the retries leave. -/
theorem not_sameResult {as bs cs : List RetryAction} {c c₁ c₂ : World × ProcessState}
    (hfresh : FreshShot deps.sha256 job.normalisedShot.toShotWithoutPayload)
    (hbefore : (retries deps job).Run System.free (w₀, process job) as c)
    (hlate : c.2.afterInsert = true)
    (hafter : (retries deps job).Run System.free (c.1, process job) bs c₁)
    (horigin : ¬ NoOrigin deps w₀ job)
    (huninterrupted : (retries deps job).Run NoRestart (w₀, process job) cs c₂)
    (hover : c₂.2.isOver = true) :
    ¬ SameResult job.normalisedShot c₁.1.db c₂.1.db := by
  -- The row that was left behind does not change any more.
  have hleft : ∃ row, Inserts w₀ job row ∧ AtStage w₀ job (.inserted row) c₁.1 := by
    obtain ⟨stage, hvalid, hw, hphase⟩ := hbefore.invariant
      (fun c a c' hinv _ hexec =>
        RetryInv.step hinv (fun _ _ => trivial) (.inr fun _ => trivial) hexec)
      (retryInv_start (P := fun _ => True) fun _ _ => trivial)
    have hend (hrow : stage ≠ .untouched) : AtStage w₀ job stage c₁.1 :=
      (hafter.invariant (I := LateInv w₀ job stage)
        (fun c a c' hinv _ hexec => LateInv.step hinv hvalid hrow hexec)
        ⟨hw, process_attempts stage⟩).1
    obtain ⟨w, s⟩ := c
    cases hphase with
    | lookup row => exact ⟨row, hvalid, hend (by simp)⟩
    | flag row origin _ => exact ⟨row, hvalid, hend (by simp)⟩
    | attempt _ hs => cases hs <;> exact absurd hlate (by simp [ProcessState.afterInsert])
    | _ => exact absurd hlate (by simp [ProcessState.afterInsert])
  obtain ⟨row, hinserts, hw₁⟩ := hleft
  obtain ⟨stage, hvalid, hcomplete, hw₂, _⟩ := stage_of_uninterrupted
    (huninterrupted.mono fun _ _ hguard hrestart => absurd hrestart hguard) hover
  rintro ⟨hrows, -⟩
  have hmem : row ∈ (tablesOf c₁.1.db).rowsOf
      (shotKey job.normalisedShot.toShotWithoutPayload) := by
    rw [hw₁.tables, Stage.db, tablesOf_insertShot, mem_rowsOf]
    exact ⟨by simp, shotKey_resolves hinserts.resolves⟩
  rw [hrows, hw₂.tables] at hmem
  cases stage with
  | untouched =>
      obtain ⟨hold, hkey⟩ := mem_rowsOf.mp hmem
      exact hinserts.fresh row hold hkey
  | inserted row' => exact horigin hcomplete
  | flagged row' origin =>
      have hnotflagged : row.duplicate_of = none :=
        (duplicateOf_resolves hinserts.resolves).trans hfresh.duplicate_of
      exact absurd (hnotflagged.symm.trans (flagged_of_rowsOf hvalid.1 hmem)) (by simp)

/-- Retries leave the row and the event of a job as an uninterrupted attempt
does, which may return or throw, exactly when no attempt was stopped between its
insert and its flag, or there was no origin for the shot. -/
theorem retried_result_iff {as : List RetryAction} {c₁ : World × ProcessState}
    (hparsed : ParserProduced deps.sha256 job.normalisedShot)
    (hrun : (retries deps job).Run System.free (w₀, process job) as c₁)
    (hreturned : c₁.2.hasReturned = true) :
    (∃ bs c₂, (retries deps job).Run NoRestart (w₀, process job) bs c₂ ∧
      c₂.2.isOver = true ∧ SameResult job.normalisedShot c₁.1.db c₂.1.db) ↔
      (retries deps job).Run NoLateRestart (w₀, process job) as c₁ ∨ NoOrigin deps w₀ job := by
  constructor
  · rintro ⟨bs, c₂, huninterrupted, hover, hsame⟩
    obtain hstrict | ⟨as₁, a, as₂, d, e, hbefore, _, hlate, hexec, hafter⟩ :=
      hrun.admitted_or_first (G := NoLateRestart)
    · exact .inl hstrict
    · refine .inr (not_not.mp fun horigin => ?_)
      obtain ⟨rfl, hinsert⟩ : a = .restart ∧ d.2.afterInsert = true := by
        simpa [NoLateRestart] using hlate
      obtain rfl := Option.some.inj hexec
      exact not_sameResult hparsed.fresh (hbefore.mono fun _ _ _ => trivial) hinsert hafter horigin
        huninterrupted hover hsame
  · intro h
    have hover : c₁.2.isOver = true := by
      obtain ⟨w, s⟩ := c₁
      cases s <;> simp [ProcessState.hasReturned, ProcessState.isOver] at hreturned ⊢
    obtain ⟨stage, hvalid, hcomplete, hw, hrefused⟩ := h.elim
      (stage_of_uninterrupted · hover) (stage_of_noOrigin hrun)
    obtain ⟨bs, w, s, huninterrupted, hover₂, hw₂⟩ :=
      exists_run_complete hvalid hcomplete (hrefused hreturned)
    exact ⟨bs, _, huninterrupted, hover₂, .of_tables (hw.tables.trans hw₂.tables.symm)⟩

/-! ### A drive whose first attempt is stopped -/

def secondJob : ShotJob := driveJob secondId secondDrive

/-- The database holds the first drive, which is an origin for the second. -/
theorem origin_afterFirst : ¬ NoOrigin driveDeps afterFirst.shared secondJob := by
  intro hnone
  have hcount : (originCandidates driveSha256 afterFirst.shared.db
      secondJob.normalisedShot.toShotWithoutPayload).toOption.map List.length = some 1 := by
    decide +kernel
  cases horigins : originCandidates driveSha256 afterFirst.shared.db
      secondJob.normalisedShot.toShotWithoutPayload with
  | error e => simp [horigins, Except.toOption] at hcount
  | ok rows =>
      cases rows with
      | nil => simp [horigins, Except.toOption] at hcount
      | cons row rows => exact hnone _ ⟨_, 0, row, horigins, rfl, rfl⟩

/-- An attempt up to its insert. -/
def insertActions : List RetryAction := [.step 0, .step 0, .step 0, .step 0]

/-- The retry reads the user from the cache, finds the row and returns. -/
def retryActions : List RetryAction := [.step 0, .step 0]

def stopped : World × ProcessState :=
  ((retries driveDeps secondJob).execAll (afterFirst.shared, process secondJob)
    insertActions).getD (afterFirst.shared, process secondJob)

def retried : World × ProcessState :=
  ((retries driveDeps secondJob).execAll (stopped.1, process secondJob) retryActions).getD
    (stopped.1, process secondJob)

/-- An attempt that stops right after its insert leaves the drive without its flag. -/
theorem retried_result_differs :
    ¬ ∀ (deps : Deps) (job : ShotJob) (w₀ : World) (as : List RetryAction)
        (c₁ : World × ProcessState), ParserProduced deps.sha256 job.normalisedShot →
      (retries deps job).Run System.free (w₀, process job) as c₁ → c₁.2.hasReturned = true →
      ∃ bs c₂, (retries deps job).Run NoRestart (w₀, process job) bs c₂ ∧
        c₂.2.isOver = true ∧ SameResult job.normalisedShot c₁.1.db c₂.1.db := by
  intro h
  have hparsed : ParserProduced driveSha256 secondJob.normalisedShot := parserProduced_driveShot
  obtain ⟨hstops, hlate, hretries, hreturns⟩ :
      ((retries driveDeps secondJob).execAll (afterFirst.shared, process secondJob)
        insertActions).isSome = true ∧ stopped.2.afterInsert = true ∧
      ((retries driveDeps secondJob).execAll (stopped.1, process secondJob)
        retryActions).isSome = true ∧ retried.2.hasReturned = true := by
    decide +kernel
  have hbefore : (retries driveDeps secondJob).Run System.free
      (afterFirst.shared, process secondJob) insertActions stopped :=
    System.run_of_isSome (fun _ _ _ => trivial) hstops
  have hafter : (retries driveDeps secondJob).Run System.free (stopped.1, process secondJob)
      retryActions retried := System.run_of_isSome (fun _ _ _ => trivial) hretries
  have hrestart : (retries driveDeps secondJob).Run System.free stopped (.restart :: retryActions)
      retried := .cons trivial rfl hafter
  obtain ⟨bs, c₂, huninterrupted, hover, hsame⟩ := h driveDeps secondJob afterFirst.shared _
    retried hparsed (hbefore.append hrestart) hreturns
  exact not_sameResult hparsed.fresh hbefore hlate hafter origin_afterFirst huninterrupted
    hover hsame

/-- Insert, look-up and flag, and the patch that is refused. -/
def wholeActions : List RetryAction :=
  insertActions ++ [.step 0, .step 0, .throw]

def whole : World × ProcessState :=
  ((retries driveDeps secondJob).execAll (afterFirst.shared, process secondJob)
    wholeActions).getD (afterFirst.shared, process secondJob)

def completed : World × ProcessState :=
  ((retries driveDeps secondJob).execAll (whole.1, process secondJob) retryActions).getD
    (whole.1, process secondJob)

/-- An attempt that stops before its insert leaves no trace, and a retry after the
refused patch finds the work done. -/
theorem retried_result_iff_early :
    ∃ bs c₂, (retries driveDeps secondJob).Run NoRestart (afterFirst.shared, process secondJob)
      bs c₂ ∧ c₂.2.isOver = true ∧
        SameResult secondJob.normalisedShot completed.1.db c₂.1.db := by
  obtain ⟨hwhole, hthrown, hretry, hreturned⟩ :
      ((retries driveDeps secondJob).execAll (afterFirst.shared, process secondJob)
        wholeActions).isSome = true ∧ whole.2.afterInsert = false ∧
      ((retries driveDeps secondJob).execAll (whole.1, process secondJob)
        retryActions).isSome = true ∧ completed.2.hasReturned = true := by
    decide +kernel
  have hfirst : (retries driveDeps secondJob).Run NoLateRestart
      (afterFirst.shared, process secondJob) (.step 0 :: .restart :: wholeActions) whole := by
    refine .cons (by simp [NoLateRestart]) rfl (.cons (fun _ => rfl) rfl ?_)
    refine System.run_of_isSome (fun a ha c hrestart => ?_) hwhole
    subst hrestart
    exact absurd ha (by simp [wholeActions, insertActions])
  have hsecond : (retries driveDeps secondJob).Run NoLateRestart whole
      (.restart :: retryActions) completed := by
    refine .cons (fun _ => hthrown) rfl (System.run_of_isSome (fun a ha c hrestart => ?_) hretry)
    subst hrestart
    exact absurd ha (by simp [retryActions])
  have hrun := hfirst.append hsecond
  exact (retried_result_iff parserProduced_driveShot (hrun.mono fun _ _ _ => trivial)
    hreturned).mpr (.inl hrun)

end Ingestion

end PureplayIngest
