import PureplayIngest.Ingestion.InsertionWindow

/-!
What becomes of a row of `shots`: it stays, and of its columns only
`canonical_user_id` and `duplicate_of` are ever written again, each once and
only while it is null.

The link to an origin is set by the attempt that inserted the row. No other
attempt ever has a window on it, so the column is still null then; and the
origin is a row that the attempt has found in the table.
-/

namespace PureplayIngest.Outbox

open Shared.Domain Shared.Kysely Identity Ingestion Lib Webhooks

/-- The row `row'` of the table is what has become of `row`. -/
structure Kept (db : Database) (row row' : NormalisedShot) : Prop where
  stored : row' ∈ db.shots
  columns : row' = { row with
    canonical_user_id := row'.canonical_user_id, duplicate_of := row'.duplicate_of }
  user : ∀ u, row.canonical_user_id = some u → row'.canonical_user_id = some u
  duplicate : ∀ o, row.duplicate_of = some o → row'.duplicate_of = some o
  origin : ∀ o, row.duplicate_of = none → row'.duplicate_of = some o →
    o ≠ row.canonical_shot_id ∧ ∃ origin ∈ db.shots, origin.canonical_shot_id = o

/-- Calls and cycles start at their beginning, and jobs come from the parsers. -/
def StartsParsed (sha256 : String → String) : Action → Prop
  | .spawn i (.service call) => StartsParsedJobs sha256 (.spawn i call)
  | .spawn _ (.publisher s) => s = .select
  | _ => True

/-- The runs from tables whose shots have ids of their own. -/
def shotSystem (deps : Deps) : System Config Action :=
  (program deps).system fun w => (w.db.shots.map fun row => row.canonical_shot_id).Nodup

/-- The shots that calls are still to insert are not flagged. -/
def PendingUnflagged (c : Config) : Prop :=
  ∀ i call shot, c.threads i = some (.service call) → call.pendingShot = some shot →
    shot.duplicate_of = none

/-- What holds in every state the runs reach. A shot an attempt may still flag
is not flagged, and its origin is another row. -/
structure FlagInv (c : Config) : Prop where
  windows : WindowInv c
  ids : (c.shared.db.shots.map fun row => row.canonical_shot_id).Nodup
  pending : PendingUnflagged c
  unflagged : ∀ i call x y, c.threads i = some (.service call) → call.window = some (x, y) →
    ∀ row ∈ c.shared.db.shots, row.canonical_shot_id = x → row.duplicate_of = none
  chosen : ∀ i call x o, c.threads i = some (.service call) → call.chosen = some (x, o) →
    o ≠ x ∧ ∃ row ∈ c.shared.db.shots, row.canonical_shot_id = o

/-! ### Rows -/

section Rows

variable {db db' : Database} {row row' row'' : NormalisedShot}

theorem Kept.refl (hrow : row ∈ db.shots) : Kept db row row :=
  ⟨hrow, rfl, fun _ h => h, fun _ h => h, fun o h h' => absurd (h.symm.trans h') (by simp)⟩

theorem Kept.id_eq (h : Kept db row row') : row'.canonical_shot_id = row.canonical_shot_id := by
  rw [h.columns]

theorem Kept.trans (h : Kept db row row') (h' : Kept db' row' row'')
    (hstored : ∀ old ∈ db.shots, ∃ new ∈ db'.shots,
      new.canonical_shot_id = old.canonical_shot_id) : Kept db' row row'' := by
  refine ⟨h'.stored, ?_, fun u hu => h'.user u (h.user u hu),
    fun o ho => h'.duplicate o (h.duplicate o ho), fun o hnone ho => ?_⟩
  · have hcolumns := h'.columns
    rw [h.columns] at hcolumns
    exact hcolumns
  · cases hbetween : row'.duplicate_of with
    | none =>
        obtain ⟨hne, horigin⟩ := h'.origin o hbetween ho
        exact ⟨h.id_eq ▸ hne, horigin⟩
    | some o' =>
        obtain rfl := Option.some.inj ((h'.duplicate o' hbetween).symm.trans ho)
        obtain ⟨hne, old, hold, rfl⟩ := h.origin o' hnone hbetween
        exact ⟨hne, hstored old hold⟩

theorem kept_flagDuplicate {x o : String} (hrow : row ∈ db.shots)
    (hunflagged : ∀ row ∈ db.shots, row.canonical_shot_id = x → row.duplicate_of = none)
    (hne : o ≠ x) (horigin : ∃ origin ∈ db.shots, origin.canonical_shot_id = o) :
    ∃ row', Kept (flagDuplicate db x o) row row' := by
  have hmem := List.mem_map_of_mem (f := fun row : NormalisedShot =>
    if row.canonical_shot_id = x then { row with duplicate_of := some o } else row) hrow
  by_cases hid : row.canonical_shot_id = x
  · rw [if_pos hid] at hmem
    refine ⟨_, hmem, rfl, fun u hu => hu, fun o' ho' => ?_, fun o' _ ho' => ?_⟩
    · exact absurd ((hunflagged row hrow hid).symm.trans ho') (by simp)
    · obtain rfl := Option.some.inj ho'
      obtain ⟨origin, horigin, rfl⟩ := horigin
      refine ⟨hid ▸ hne, origin, ?_, rfl⟩
      have hkept := List.mem_map_of_mem (f := fun row : NormalisedShot =>
        if row.canonical_shot_id = x then { row with duplicate_of := some origin.canonical_shot_id }
        else row) horigin
      rw [if_neg hne] at hkept
      exact hkept
  · rw [if_neg hid] at hmem
    exact ⟨row, .refl hmem⟩

theorem kept_backfill (pair : Vendor × String) (user : String) (hrow : row ∈ db.shots) :
    ∃ row', Kept (backfillCanonicalUser db pair user) row row' := by
  have hmem := List.mem_map_of_mem (f := fun row : NormalisedShot =>
    if row.vendor = pair.1 ∧ row.vendor_user_id = pair.2 ∧ row.canonical_user_id = none then
      { row with canonical_user_id := some user }
    else row) hrow
  split at hmem
  · rename_i hmatch
    refine ⟨_, hmem, rfl, fun u hu => ?_, fun o ho => ho, fun o hnone ho => ?_⟩
    · exact absurd (hmatch.2.2.symm.trans hu) (by simp)
    · exact absurd (hnone.symm.trans ho) (by simp)
  · exact ⟨row, .refl hmem⟩

end Rows

/-! ### Steps -/

section Steps

variable {deps : Deps} {c c' : Config} {i : ℕ} {call call' : Call} {label : Label} {world : World}
  {a : Action}

/-- A step of a call keeps every row. -/
theorem kept_call (hinv : FlagInv c) (hi : c.threads i = some (.service call))
    (h : TablesEffect c.shared.toWorld world call call') {row : NormalisedShot}
    (hrow : row ∈ c.shared.db.shots) : ∃ row', Kept world.db row row' := by
  cases h with
  | frame hsame => exact ⟨row, .refl (hsame.shots ▸ hrow)⟩
  | insert job haccepted hkey hid hdb =>
      rw [hdb]
      exact ⟨row, .refl (List.mem_append_left _ hrow)⟩
  | flag job shot id origin hdb =>
      obtain ⟨hne, horigin⟩ := hinv.chosen i _ shot.canonical_shot_id origin hi rfl
      rw [hdb]
      exact kept_flagDuplicate hrow (hinv.unflagged i _ _ id hi rfl) hne horigin
  | backfill pair user identity hdb =>
      rw [hdb]
      exact kept_backfill pair user hrow

/-- Every action keeps every row. -/
theorem kept_step (hinv : FlagInv c) (hexec : (program deps).exec c a = some c')
    {row : NormalisedShot} (hrow : row ∈ c.shared.db.shots) :
    ∃ row', Kept c'.shared.db row row' := by
  obtain ⟨i, p, rfl, _, rfl⟩ | ⟨i, e, p, w', q, rfl, hi, hstep, rfl⟩ | ⟨x, w', rfl, hevent, rfl⟩ :=
    Program.exec_cases hexec
  · exact ⟨row, .refl hrow⟩
  · cases step_cases hstep with
    | service hservice => exact kept_call hinv hi (step_tablesEffect hservice) hrow
    | publisher hpublisher => exact ⟨row, .refl (hpublisher.tables.1 ▸ hrow)⟩
  · obtain ⟨world, hworld, rfl⟩ := Option.map_eq_some_iff.mp hevent
    exact ⟨row, .refl ((event_same hworld).shots ▸ hrow)⟩

theorem ids_step (hids : (c.shared.db.shots.map fun row => row.canonical_shot_id).Nodup)
    (h : TablesEffect c.shared.toWorld world call call') :
    (world.db.shots.map fun row => row.canonical_shot_id).Nodup := by
  have hsame (f : NormalisedShot → NormalisedShot)
      (hf : ∀ row, (f row).canonical_shot_id = row.canonical_shot_id) :
      ((c.shared.db.shots.map f).map fun row => row.canonical_shot_id).Nodup := by
    rw [List.map_map]
    exact (List.map_congr_left fun row _ => hf row) ▸ hids
  cases h with
  | frame hframe => exact hframe.shots ▸ hids
  | insert job haccepted hkey hid hdb =>
      rw [hdb]
      show (List.map _ (c.shared.db.shots ++ [_])).Nodup
      rw [List.map_append, List.map_singleton, List.nodup_append]
      refine ⟨hids, List.nodup_singleton _, fun x hx y hy heq => ?_⟩
      obtain ⟨row, hrow, rfl⟩ := List.mem_map.mp hx
      exact hid row hrow (heq.trans (List.mem_singleton.mp hy))
  | flag job shot id origin hdb =>
      rw [hdb]
      exact hsame _ fun row => by split <;> rfl
  | backfill pair user identity hdb =>
      rw [hdb]
      exact hsame _ fun row => by split <;> rfl

/-- A shot that may still be flagged after a step of a call is not flagged yet. -/
theorem unflagged_afterCall (hinv : FlagInv c) (hi : c.threads i = some (.service call))
    (h : TablesEffect c.shared.toWorld world call call') {j : ℕ} {other : Call} {x y : String}
    (hj : (afterCall c i world call').threads j = some (.service other))
    (hwindow : other.window = some (x, y)) {row : NormalisedShot} (hrow : row ∈ world.db.shots)
    (hid : row.canonical_shot_id = x) : row.duplicate_of = none := by
  obtain ⟨rfl, rfl⟩ | ⟨hji, hj⟩ := afterCall_cases hj
  · cases h with
    | frame hsame hkept =>
        exact hinv.unflagged j call x y hi (hkept _ hwindow) row (hsame.shots ▸ hrow) hid
    | insert job haccepted hkey hfresh hdb =>
        obtain ⟨rfl, rfl⟩ := Prod.mk.inj (Option.some.inj hwindow)
        rw [hdb] at hrow
        obtain hrow | hrow := List.mem_append.mp hrow
        · exact absurd hid (hfresh row hrow)
        · obtain rfl := List.mem_singleton.mp hrow
          exact hinv.pending j _ row hi rfl
    | flag job shot id origin hdb => exact absurd hwindow (by simp [Call.window])
    | backfill pair user identity hdb => exact absurd hwindow (by simp [Call.window])
  · obtain ⟨_, hstored⟩ := hinv.windows.window j other x y hj hwindow
    obtain ⟨old, hold, hid, hdup⟩ :=
      rows_step h hstored (fun _ => not_chosen hinv.windows hi hj hji hwindow) hrow hid
    exact hdup.trans (hinv.unflagged j other x y hj hwindow old hold hid)

/-- The origin a call has chosen is another row, and stays. -/
theorem chosen_afterCall (hinv : FlagInv c) (hi : c.threads i = some (.service call))
    (hstep : Service.step deps c.shared.toWorld call label = some (world, call')) {j : ℕ}
    {other : Call} {x o : String}
    (hj : (afterCall c i world call').threads j = some (.service other))
    (hchosen : other.chosen = some (x, o)) :
    o ≠ x ∧ ∃ row ∈ world.db.shots, row.canonical_shot_id = o := by
  have h := step_tablesEffect hstep
  obtain ⟨rfl, rfl⟩ | ⟨_, hj⟩ := afterCall_cases hj
  · obtain ⟨job, shot, id, k, origins, origin, _, _, horigins, horigin, rfl, rfl⟩ :=
      step_choose hstep hchosen
    obtain ⟨hmem, hfind⟩ := originCandidates_mem horigins (List.mem_of_getElem? horigin)
    exact ⟨hfind.canonical_shot_id, h.shotsEffect.stored ⟨origin, hmem, rfl⟩⟩
  · exact (hinv.chosen j other x o hj hchosen).imp_right h.shotsEffect.stored

theorem StartsParsed.starts {sha256 : String → String} (h : StartsParsed sha256 a) : Starts a := by
  cases a with
  | spawn i p =>
      cases p with
      | service call => exact StartsParsedJobs.initial h
      | publisher s => exact h
  | step i e => trivial
  | env x => trivial

theorem PendingUnflagged.spawn {p : OutboxCall} (hpending : PendingUnflagged c)
    (hstart : StartsParsed deps.sha256 (.spawn i p)) :
    PendingUnflagged { c with threads := Function.update c.threads i (some p) } := by
  intro j call shot hj hshot
  obtain ⟨_, rfl⟩ | ⟨_, hj⟩ := Program.update_cases hj
  · exact (StartsParsedJobs.unflagged hstart).2 shot hshot
  · exact hpending j call shot hj hshot

theorem PendingUnflagged.afterCall (hpending : PendingUnflagged c)
    (hi : c.threads i = some (.service call))
    (hstep : Service.step deps c.shared.toWorld call label = some (world, call')) :
    PendingUnflagged (afterCall c i world call') := by
  intro j other shot hj hshot
  obtain ⟨rfl, rfl⟩ | ⟨_, hj⟩ := afterCall_cases hj
  · obtain ⟨before, user, hbefore, rfl⟩ := step_pendingShot hstep hshot
    exact hpending j call before hi hbefore
  · exact hpending j other shot hj hshot

theorem FlagInv.spawn {p : OutboxCall} (hinv : FlagInv c)
    (hstart : StartsParsed deps.sha256 (.spawn i p)) :
    FlagInv { c with threads := Function.update c.threads i (some p) } := by
  have hwindow := hstart.starts.spawned.1
  have hnew (call : Call) (heq : p = .service call) : call.chosen = none := by
    subst heq
    exact (StartsParsedJobs.unflagged hstart).1
  have hcases {j : ℕ} {call : Call}
      (hj : Function.update c.threads i (some p) j = some (.service call)) :
      p = .service call ∨ c.threads j = some (.service call) :=
    (Program.update_cases hj).imp And.right And.right
  refine ⟨hinv.windows.spawn hstart.starts, hinv.ids, hinv.pending.spawn hstart,
    fun j call x y hj hxy => ?_, fun j call x o hj hxo => ?_⟩
  · obtain heq | hj := hcases hj
    · exact absurd ((hwindow call heq).symm.trans hxy) (by simp)
    · exact hinv.unflagged j call x y hj hxy
  · obtain heq | hj := hcases hj
    · exact absurd ((hnew call heq).symm.trans hxo) (by simp)
    · exact hinv.chosen j call x o hj hxo

theorem FlagInv.step (hinv : FlagInv c) (hstart : StartsParsed deps.sha256 a)
    (hexec : (program deps).exec c a = some c') : FlagInv c' := by
  have hwindows := hinv.windows.step hstart.starts hexec
  obtain ⟨i, p, rfl, _, rfl⟩ | ⟨i, e, p, w', q, rfl, hi, hstep, rfl⟩ | ⟨x, w', rfl, hevent, rfl⟩ :=
    Program.exec_cases hexec
  · exact hinv.spawn hstart
  · cases step_cases hstep with
    | @service call call' label world hservice =>
        have h := step_tablesEffect hservice
        exact ⟨hwindows, ids_step hinv.ids h, hinv.pending.afterCall hi hservice,
          fun j other x y hj hxy row hrow hid => unflagged_afterCall hinv hi h hj hxy hrow hid,
          fun j other x o hj hxo => chosen_afterCall hinv hi hservice hj hxo⟩
    -- The publisher deletes events only.
    | publisher hpublisher =>
        have hshots := hpublisher.tables.1
        refine ⟨hwindows, hshots ▸ hinv.ids,
          fun j call shot hj => hinv.pending j call shot (afterCycleStep_cases hj),
          fun j call x y hj => ?_, fun j call x o hj => ?_⟩
        · rw [hshots]
          exact hinv.unflagged j call x y (afterCycleStep_cases hj)
        · rw [hshots]
          exact hinv.chosen j call x o (afterCycleStep_cases hj)
  · obtain ⟨world, hworld, rfl⟩ := Option.map_eq_some_iff.mp hevent
    have hshots := (event_same hworld).shots
    refine ⟨hwindows, hshots ▸ hinv.ids, hinv.pending, fun j call x y hj => ?_,
      fun j call x o hj => ?_⟩
    · rw [hshots]
      exact hinv.unflagged j call x y hj
    · rw [hshots]
      exact hinv.chosen j call x o hj

end Steps

/-! ### Runs -/

theorem flagInv_of_reach {deps : Deps} {c : Config}
    (h : (shotSystem deps).Reach (fun _ => StartsParsed deps.sha256) c) : FlagInv c := by
  refine h.invariant (fun c₀ h₀ => ?_) fun c a c' hinv hstart hexec => hinv.step hstart hexec
  obtain ⟨hids, hidle⟩ := h₀
  have hnone {i : ℕ} {p : OutboxCall} : c₀.threads i ≠ some p := fun hi =>
    absurd ((hidle i).symm.trans hi) (by simp)
  exact ⟨⟨fun i call x y hi => absurd hi hnone, fun i j call other x y z hi => absurd hi hnone⟩,
    hids, fun i call shot hi => absurd hi hnone, fun i call x y hi => absurd hi hnone,
    fun i call x o hi => absurd hi hnone⟩

/-- From any state of a run to any later one. -/
theorem kept_run {deps : Deps} {c c' : Config} {as : List Action}
    (hrun : (shotSystem deps).Run (fun _ => StartsParsed deps.sha256) c as c') (hinv : FlagInv c) :
    ∀ row ∈ c.shared.db.shots, ∃ row', Kept c'.shared.db row row' := by
  induction hrun with
  | nil c => exact fun row hrow => ⟨row, .refl hrow⟩
  | cons hstart hexec tail ih =>
      intro row hrow
      have hrest := ih (hinv.step hstart hexec)
      obtain ⟨between, hbetween⟩ := kept_step hinv hexec hrow
      obtain ⟨last, hlast⟩ := hrest between hbetween.stored
      refine ⟨last, hbetween.trans hlast fun old hold => ?_⟩
      obtain ⟨new, hnew⟩ := hrest old hold
      exact ⟨new, hnew.stored, hnew.id_eq⟩

/-- Stored shots are append-only. In every run, from any state on, each row stays
under its id, and what can have changed of it by any later state is that its
canonical user or its origin is set where it was null. -/
theorem shots_append_only {deps : Deps} {c c' : Config} {as : List Action}
    (hreach : (shotSystem deps).Reach (fun _ => StartsParsed deps.sha256) c)
    (hrun : (shotSystem deps).Run (fun _ => StartsParsed deps.sha256) c as c') :
    ∀ row ∈ c.shared.db.shots, ∃ row', Kept c'.shared.db row row' ∧
      ∀ other ∈ c'.shared.db.shots, other.canonical_shot_id = row.canonical_shot_id →
        other = row' := by
  intro row hrow
  obtain ⟨row', hkept⟩ := kept_run hrun (flagInv_of_reach hreach) row hrow
  refine ⟨row', hkept, fun other hother hid => ?_⟩
  exact List.inj_on_of_nodup_map (flagInv_of_reach (hreach.run hrun)).ids hother hkept.stored
    (hid.trans hkept.id_eq.symm)

/-! ### A shot that is flagged and attributed -/

/-- The second drive is inserted beside the first. -/
def insertSecondActions : List Action :=
  [.spawn 0 (.service (.process (process (driveJob secondId secondDrive)))),
    .step 0 (.service (.ok 0)), .step 0 (.service (.ok 0)), .step 0 (.service (.ok 0)),
    .step 0 (.service (.ok 0))]

def secondInserted : Config :=
  ((shotSystem driveDeps).execAll oneShot insertSecondActions).getD oneShot

/-- It is flagged, the patch of its event fails, and both drives are attributed by a link. -/
def attributeActions : List Action :=
  [.step 0 (.service (.ok 0)), .step 0 (.service (.ok 0)), .step 0 (.service .fail),
    .spawn 1 (.service (.link (.commit (.trackpro, "demo-player-1") "golfer-1" "internal-api"))),
    .step 1 (.service (.ok 0)), .step 1 (.service (.ok 0)), .step 1 (.service (.ok 0))]

def attributed : Config :=
  ((shotSystem driveDeps).execAll secondInserted attributeActions).getD secondInserted

theorem kept_attributed :
    (secondInserted.shared.db.shots.map fun row => (row.canonical_user_id, row.duplicate_of)) =
        [(none, none), (none, none)] ∧
      (attributed.shared.db.shots.map fun row => (row.canonical_user_id, row.duplicate_of)) =
        [(some "golfer-1", none), (some "golfer-1", some firstId)] ∧
      ∀ row ∈ secondInserted.shared.db.shots, ∃ row', Kept attributed.shared.db row row' ∧
        ∀ other ∈ attributed.shared.db.shots, other.canonical_shot_id = row.canonical_shot_id →
          other = row' := by
  have hinsert : ∀ a ∈ insertSecondActions, StartsParsed driveSha256 a := by
    simp only [insertSecondActions, List.forall_mem_cons]
    refine ⟨startsParsedJobs_drive (i := 0), ?_⟩
    simp [StartsParsed]
  have hattribute : ∀ a ∈ attributeActions, StartsParsed driveSha256 a := by
    simp only [attributeActions, List.forall_mem_cons]
    refine ⟨trivial, trivial, trivial, .link _ _ _, ?_⟩
    simp [StartsParsed]
  obtain ⟨hinserted, hattributed, hunset, hset⟩ :
      ((shotSystem driveDeps).execAll oneShot insertSecondActions).isSome = true ∧
        ((shotSystem driveDeps).execAll secondInserted attributeActions).isSome = true ∧
        (secondInserted.shared.db.shots.map fun row => (row.canonical_user_id, row.duplicate_of)) =
          [(none, none), (none, none)] ∧
        (attributed.shared.db.shots.map fun row => (row.canonical_user_id, row.duplicate_of)) =
          [(some "golfer-1", none), (some "golfer-1", some firstId)] := by
    decide +kernel
  have hbefore : (shotSystem driveDeps).Run (fun _ => StartsParsed driveSha256) oneShot
      insertSecondActions secondInserted :=
    System.run_of_isSome (fun a ha _ => hinsert a ha) hinserted
  have hafter : (shotSystem driveDeps).Run (fun _ => StartsParsed driveSha256) secondInserted
      attributeActions attributed :=
    System.run_of_isSome (fun a ha _ => hattribute a ha) hattributed
  exact ⟨hunset, hset, shots_append_only
    ⟨oneShot, insertSecondActions, ⟨List.nodup_singleton _, fun _ => rfl⟩, hbefore⟩ hafter⟩

end PureplayIngest.Outbox
