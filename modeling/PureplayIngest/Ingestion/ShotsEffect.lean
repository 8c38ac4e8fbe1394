import PureplayIngest.Service

/-!
What the steps of the service do to the tables of shots and of events. Rows are
inserted by the transaction of `upsertIfNew`, and rows of `shots` are changed by
the flag of a near-duplicate and the backfill of a link; nothing else touches
them.
-/

namespace PureplayIngest

open Shared.Domain Shared.Kysely Identity Ingestion Lib

/-- Rows of `shots` and of `outbox_events` are as before. -/
structure SameShotTables (db db' : Database) : Prop where
  shots : db'.shots = db.shots
  outbox_events : db'.outbox_events = db.outbox_events
  nextEventId : db'.nextEventId = db.nextEventId

theorem SameShotTables.refl (db : Database) : SameShotTables db db := ⟨rfl, rfl, rfl⟩

theorem SameShotTables.of_eq {db db' : Database} (h : db' = db) : SameShotTables db db' :=
  h ▸ .refl db'

namespace Identity

variable {db db' : Database} {pair : Vendor × String} {c actor : String}

theorem upsertIdentity_same (db : Database) (pair : Vendor × String) (c : String) :
    SameShotTables db (upsertIdentity db pair c).1 := by
  rw [upsertIdentity]
  split <;> exact ⟨rfl, rfl, rfl⟩

theorem linkTransaction_same {row : VendorIdentity}
    (h : linkTransaction db pair c actor = some (db', row)) : SameShotTables db db' := by
  rw [linkTransaction] at h
  split at h
  · obtain ⟨rfl, _⟩ := Prod.mk.inj (Option.some.inj h)
    obtain ⟨hshots, hevents, hnext⟩ := upsertIdentity_same db pair c
    exact ⟨hshots, hevents, hnext⟩
  · exact absurd h (by simp)

theorem unlinkTransaction_same (h : unlinkTransaction db pair c actor = some db') :
    SameShotTables db db' := by
  simp only [unlinkTransaction] at h
  split at h
  · obtain rfl := Option.some.inj h
    exact ⟨rfl, rfl, rfl⟩
  · exact absurd h (by simp)

theorem UnlinkState.step_same {w w' : Stores} {s s' : UnlinkState}
    (h : s.step w = some (w', s')) : SameShotTables w.db w'.db := by
  cases s with
  | commit pair c actor =>
      simp only [UnlinkState.step] at h
      split at h
      · rename_i db hunlink
        obtain ⟨rfl, _⟩ := Prod.mk.inj (Option.some.inj h)
        exact unlinkTransaction_same hunlink
      · exact (Prod.mk.inj (Option.some.inj h)).1 ▸ .refl w.db
  | del pair c => exact (Prod.mk.inj (Option.some.inj h)).1 ▸ .refl w.db
  | _ => exact absurd h (by simp [UnlinkState.step])

theorem ListState.step_same {w w' : Stores} {s s' : ListState} {order : List VendorIdentity}
    (h : s.step w order = some (w', s')) : SameShotTables w.db w'.db := by
  cases s with
  | get c actor =>
      simp only [ListState.step] at h
      split at h
      · exact (Prod.mk.inj (Option.some.inj h)).1 ▸ .refl w.db
      · exact absurd h (by simp)
      · exact (Prod.mk.inj (Option.some.inj h)).1 ▸ .refl w.db
  | select c actor =>
      simp only [ListState.step] at h
      split at h
      · exact (Prod.mk.inj (Option.some.inj h)).1 ▸ .refl w.db
      · exact absurd h (by simp)
  | set c actor rows => exact (Prod.mk.inj (Option.some.inj h)).1 ▸ .refl w.db
  | audit c actor rows => exact (Prod.mk.inj (Option.some.inj h)).1 ▸ ⟨rfl, rfl, rfl⟩
  | finished c rows => exact absurd h (by simp [ListState.step])

end Identity

namespace Call

/-- The shot a call has inserted and may still flag, and the id that the
insertion returned. -/
def window : Call → Option (String × String)
  | .process (.lookup _ shot id) => some (shot.canonical_shot_id, id)
  | .process (.flag _ shot id _) => some (shot.canonical_shot_id, id)
  | _ => none

end Call

/-- What one step of a call does to shots and events. Rows are inserted in
pairs; a flag and a backfill change rows of `shots` that are there. -/
inductive TablesEffect (w w' : World) : Call → Call → Prop
  | frame {call call' : Call} (hsame : SameShotTables w.db w'.db)
      (hwindow : ∀ p, call'.window = some p → call.window = some p) :
      TablesEffect w w' call call'
  | insert (job : ShotJob) {shot : NormalisedShot}
      (haccepted : Migrations.ShotAccepted shot)
      (hkey : ∀ row ∈ w.db.shots,
        shotKey row.toShotWithoutPayload ≠ shotKey shot.toShotWithoutPayload)
      (hid : ∀ row ∈ w.db.shots, row.canonical_shot_id ≠ shot.canonical_shot_id)
      (hdb : w'.db = Database.insertShot w.db shot) :
      TablesEffect w w' (.process (.upsert job shot))
        (.process (.lookup job shot shot.canonical_shot_id))
  | flag (job : ShotJob) (shot : NormalisedShot) (id origin : String)
      (hdb : w'.db = flagDuplicate w.db shot.canonical_shot_id origin) :
      TablesEffect w w' (.process (.flag job shot id origin))
        (.process (.patchOutbox job id origin))
  | backfill (pair : Vendor × String) (user : String) (row : VendorIdentity)
      (hdb : w'.db = backfillCanonicalUser w.db pair user) :
      TablesEffect w w' (.link (.backfill pair user row)) (.link (.finished pair user row true))

section

variable {deps : Deps} {w w' : World}

/-- A step of a call without a window that leaves shots and events alone. -/
theorem TablesEffect.outside {call call' : Call} (hsame : SameShotTables w.db w'.db)
    (hwindow : call'.window = none) : TablesEffect w w' call call' :=
  .frame hsame fun p h => absurd (hwindow.symm.trans h) (by simp)

theorem process_tablesEffect {s s' : ProcessState} {k : ℕ}
    (h : s.step deps w k = some (w', s')) : TablesEffect w w' (.process s) (.process s') := by
  cases ProcessState.step_cases h with
  | recordFailure job => exact .outside ⟨rfl, rfl, rfl⟩ rfl
  | resolving job hcall =>
      rename_i call₁ call₂ stores
      have hsame : SameShotTables w.db stores.db := .of_eq (ResolveState.step_db hcall)
      cases call₂ <;> exact .outside hsame rfl
  | duplicate job hupsert =>
      obtain ⟨_, hcases⟩ := upsertIfNew_cases hupsert
      cases hcases with
      | duplicate existing _ _ heq => exact .outside (.of_eq heq) rfl
  | inserted job hupsert =>
      obtain ⟨haccepted, hcases⟩ := upsertIfNew_cases hupsert
      cases hcases with
      | inserted hkey hid heq => exact .insert job haccepted hkey hid heq
  | accepted job id hnone => exact .outside (.refl w.db) rfl
  | choose job id hrows horigin => exact .frame (.refl w.db) fun _ h => h
  | flag job shot id origin => exact .flag job shot id origin rfl

theorem link_tablesEffect {s s' : LinkState} {stores : Stores}
    (h : s.step w.toStores = some (stores, s')) :
    TablesEffect w { w with toStores := stores } (.link s) (.link s') := by
  cases s with
  | commit pair c actor =>
      obtain ⟨⟨db, row⟩, hlink, heq⟩ := Option.map_eq_some_iff.mp h
      obtain ⟨rfl, rfl⟩ := Prod.mk.inj heq
      exact .outside (linkTransaction_same hlink) rfl
  | del pair c row =>
      obtain ⟨rfl, rfl⟩ := Prod.mk.inj (Option.some.inj h)
      exact .outside (.refl w.db) rfl
  | backfill pair c row =>
      obtain ⟨rfl, rfl⟩ := Prod.mk.inj (Option.some.inj h)
      exact .backfill pair c row rfl
  | _ => exact absurd h (by simp [LinkState.step])

theorem step_tablesEffect {call call' : Call} {label : Label}
    (h : Service.step deps w call label = some (w', call')) : TablesEffect w w' call call' := by
  cases Service.step_cases h with
  | process hstep => exact process_tablesEffect hstep
  | processFail hfail =>
      obtain ⟨job, rfl⟩ := ProcessState.fail_cases hfail
      exact .outside (.refl w.db) rfl
  | resolve k hstep => exact .outside (.of_eq (ResolveState.step_db hstep)) rfl
  | link k hstep => exact link_tablesEffect hstep
  | linkFail hfail => exact .outside (.refl w.db) rfl
  | unlink k hstep => exact .outside (UnlinkState.step_same hstep) rfl
  | unlinkFail hfail => exact .outside (.refl w.db) rfl
  | list hstep => exact .outside (ListState.step_same hstep) rfl
  | listFail hfail => exact .outside (.refl w.db) rfl

end

/-- What one step of a call does to the rows of `shots`. -/
inductive ShotsEffect (w w' : World) : Call → Call → Prop
  | frame {call call' : Call} (hshots : w'.db.shots = w.db.shots) : ShotsEffect w w' call call'
  | insert (job : ShotJob) {shot : NormalisedShot}
      (haccepted : Migrations.ShotAccepted shot)
      (hkey : ∀ row ∈ w.db.shots,
        shotKey row.toShotWithoutPayload ≠ shotKey shot.toShotWithoutPayload)
      (hid : ∀ row ∈ w.db.shots, row.canonical_shot_id ≠ shot.canonical_shot_id)
      (hshots : w'.db.shots = w.db.shots ++ [shot]) :
      ShotsEffect w w' (.process (.upsert job shot))
        (.process (.lookup job shot shot.canonical_shot_id))
  | flag (job : ShotJob) (shot : NormalisedShot) (id origin : String)
      (hshots : w'.db.shots = (flagDuplicate w.db shot.canonical_shot_id origin).shots) :
      ShotsEffect w w' (.process (.flag job shot id origin)) (.process (.patchOutbox job id origin))
  | backfill (pair : Vendor × String) (user : String) (row : VendorIdentity)
      (hshots : w'.db.shots = (backfillCanonicalUser w.db pair user).shots) :
      ShotsEffect w w' (.link (.backfill pair user row)) (.link (.finished pair user row true))

theorem TablesEffect.shotsEffect {w w' : World} {call call' : Call}
    (h : TablesEffect w w' call call') : ShotsEffect w w' call call' := by
  cases h with
  | frame hsame => exact .frame hsame.shots
  | insert job haccepted hkey hid hdb =>
      exact .insert job haccepted hkey hid (congrArg Database.shots hdb)
  | flag job shot id origin hdb => exact .flag job shot id origin (congrArg Database.shots hdb)
  | backfill pair user row hdb => exact .backfill pair user row (congrArg Database.shots hdb)

theorem step_shotsEffect {deps : Deps} {w w' : World} {call call' : Call} {label : Label}
    (h : Service.step deps w call label = some (w', call')) : ShotsEffect w w' call call' :=
  (step_tablesEffect h).shotsEffect

theorem event_same {w w' : World} {x : Event} (h : Service.event w x = some w') :
    SameShotTables w.db w'.db := by
  cases x with
  | expire key => exact Option.some.inj h ▸ ⟨rfl, rfl, rfl⟩
  | tick ms => exact Option.some.inj h ▸ ⟨rfl, rfl, rfl⟩

/-! ### The shot an attempt is to insert -/

namespace Call

/-- The shot a call is still to insert. -/
def pendingShot : Call → Option NormalisedShot
  | .process (.resolving job _) => some job.normalisedShot
  | .process (.upsert _ shot) => some shot
  | _ => none

end Call

/-- Resolving sets the canonical user of a shot and nothing else. -/
theorem resolvedShot_eq (shot : NormalisedShot) (user : Option String) :
    ∃ c, resolvedShot shot user = { shot with canonical_user_id := c } := by
  rw [resolvedShot.eq_def]
  split
  · exact ⟨shot.canonical_user_id, rfl⟩
  · rename_i c
    split
    · exact ⟨shot.canonical_user_id, rfl⟩
    · exact ⟨some c, rfl⟩

/-- The shot an attempt is to insert is that of its job, up to the canonical user. -/
theorem step_pendingShot {deps : Deps} {w w' : World} {call call' : Call} {label : Label}
    {shot : NormalisedShot} (h : Service.step deps w call label = some (w', call'))
    (hshot : call'.pendingShot = some shot) :
    ∃ before c, call.pendingShot = some before ∧ shot = { before with canonical_user_id := c } := by
  cases Service.step_cases h with
  | process hstep =>
      cases ProcessState.step_cases hstep with
      | resolving job hcall =>
          rename_i call₁ call₂ stores
          cases call₂ with
          | returned pair user =>
              obtain ⟨c, hc⟩ := resolvedShot_eq job.normalisedShot user
              obtain rfl := Option.some.inj hshot
              exact ⟨job.normalisedShot, c, rfl, hc⟩
          | _ =>
              obtain rfl := Option.some.inj hshot
              exact ⟨job.normalisedShot, _, rfl, rfl⟩
      | _ => exact absurd hshot (by simp [Call.pendingShot])
  | processFail hfail =>
      obtain ⟨job, rfl⟩ := ProcessState.fail_cases hfail
      exact absurd hshot (by simp [Call.pendingShot])
  | _ => exact absurd hshot (by simp [Call.pendingShot])

end PureplayIngest
