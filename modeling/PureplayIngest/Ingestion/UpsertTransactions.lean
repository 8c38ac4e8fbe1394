import Mathlib.Data.List.Nodup
import Mathlib.Data.List.Pairwise
import PureplayIngest.Ingestion.ShotRepository
import PureplayIngest.Lib.Interleaving
import PureplayIngest.Lib.WriteSets
import PureplayIngest.Webhooks.Parsed

/-!
`upsertIfNew` statement by statement, any number of calls side by side.

Elsewhere the transaction is one step. Here each of its statements is, so
that other calls run between them and any call may be rolled back at any
point. What a transaction has written is kept beside the tables until it
commits; an INSERT whose key or id an open transaction has written waits for
that transaction to end. Ids drawn from the sequence are not given back.
-/

namespace PureplayIngest.Ingestion

open Shared.Domain Shared.Kysely Migrations Lib

/-- The committed tables, and what the open transactions have written. -/
structure Transactions where
  db : Database
  shots : WriteSets ℕ NormalisedShot
  outbox_events : WriteSets ℕ OutboxEvent

/-- A call of `upsertIfNew`. `began` is when its transaction started, which
is what `now()` is in all its statements. -/
inductive UpsertState
  | started (shot : NormalisedShot)
  | insertShot (shot : NormalisedShot) (began : ℤ)
  | insertEvent (shot : NormalisedShot) (began : ℤ)
  | selectExisting (shot : NormalisedShot)
  | commit (shot : NormalisedShot) (result : UpsertResult)
  | committed (shot : NormalisedShot) (result : UpsertResult)
  | aborted (shot : NormalisedShot)

inductive Outcome
  | ok
  | abort

namespace Transactions

/-- An open transaction has written a row with the shot's key or its id. -/
def Locked (s : Transactions) (shot : ShotWithoutPayload) : Prop :=
  ∃ write ∈ s.shots, shotKey write.2.toShotWithoutPayload = shotKey shot ∨
    write.2.canonical_shot_id = shot.canonical_shot_id

instance (s : Transactions) (shot : ShotWithoutPayload) : Decidable (s.Locked shot) :=
  inferInstanceAs (Decidable (∃ write ∈ s.shots, _))

/-- COMMIT of transaction `i`. -/
def publish (s : Transactions) (i : ℕ) : Transactions where
  db := { s.db with
    shots := s.db.shots ++ s.shots.of i
    outbox_events := s.db.outbox_events ++ s.outbox_events.of i }
  shots := s.shots.without i
  outbox_events := s.outbox_events.without i

/-- ROLLBACK of transaction `i`. -/
def rollback (s : Transactions) (i : ℕ) : Transactions :=
  { s with shots := s.shots.without i, outbox_events := s.outbox_events.without i }

/-- The next statement of call `i`; `none` when it fails or has to wait. -/
def statement (i : ℕ) (s : Transactions) : UpsertState → Option (Transactions × UpsertState)
  | .started shot => some (s, .insertShot shot s.db.now)
  | .insertShot shot began =>
      if ShotAccepted shot then
        match findByIdempotencyKey s.db (shotKey shot.toShotWithoutPayload) with
        | some _ => some (s, .selectExisting shot)
        | none =>
            if s.Locked shot.toShotWithoutPayload ∨
                violatesKeys s.db shot.toShotWithoutPayload then none
            else some ({ s with shots := s.shots ++ [(i, shot)] }, .insertEvent shot began)
      else none
  | .insertEvent shot began =>
      let event : OutboxEvent :=
        { id := s.db.nextEventId, event_type := "shot.persisted",
          payload := shot.toShotWithoutPayload, created_at := began }
      some ({ s with
          db := { s.db with nextEventId := s.db.nextEventId + 1 }
          outbox_events := s.outbox_events ++ [(i, event)] },
        .commit shot ⟨true, shot.canonical_shot_id⟩)
  | .selectExisting shot =>
      (findByIdempotencyKey s.db (shotKey shot.toShotWithoutPayload)).map fun existing =>
        (s, .commit shot ⟨false, existing.canonical_shot_id⟩)
  | .commit shot result => some (s.publish i, .committed shot result)
  | .committed _ _ => none
  | .aborted _ => none

/-- The transaction of a call that has not ended is rolled back. -/
def abort (i : ℕ) (s : Transactions) : UpsertState → Option (Transactions × UpsertState)
  | .started shot => some (s.rollback i, .aborted shot)
  | .insertShot shot _ => some (s.rollback i, .aborted shot)
  | .insertEvent shot _ => some (s.rollback i, .aborted shot)
  | .selectExisting shot => some (s.rollback i, .aborted shot)
  | .commit shot _ => some (s.rollback i, .aborted shot)
  | .committed _ _ => none
  | .aborted _ => none

def step (i : ℕ) (s : Transactions) (call : UpsertState) :
    Outcome → Option (Transactions × UpsertState)
  | .ok => s.statement i call
  | .abort => s.abort i call

/-- Time passes. -/
def tick (s : Transactions) (ms : ℕ) : Transactions :=
  { s with db := { s.db with now := s.db.now + ms } }

def program : Program ℕ Transactions UpsertState Outcome ℕ where
  step := step
  env s ms := some (s.tick ms)

/-- Runs start with neither shots nor events, and no transaction open. -/
def system : System (Config ℕ Transactions UpsertState) (Action ℕ UpsertState Outcome ℕ) :=
  program.system fun s =>
    s.db.shots = [] ∧ s.db.outbox_events = [] ∧ s.shots = [] ∧ s.outbox_events = []

/-- Calls are started from their first statement. -/
def OnlyUpserts (_ : Config ℕ Transactions UpsertState) :
    Action ℕ UpsertState Outcome ℕ → Prop
  | .spawn _ call => ∃ shot, call = .started shot
  | _ => True

/-! ### What a statement does -/

/-- The statements of a call, one by one. -/
inductive Statement (i : ℕ) (s : Transactions) : UpsertState → Transactions → UpsertState → Prop
  | begin (shot : NormalisedShot) :
      Statement i s (.started shot) s (.insertShot shot s.db.now)
  | conflict {shot : NormalisedShot} (began : ℤ)
      (haccepted : ShotAccepted shot) :
      Statement i s (.insertShot shot began) s (.selectExisting shot)
  | insert {shot : NormalisedShot} (began : ℤ)
      (haccepted : ShotAccepted shot)
      (hfind : findByIdempotencyKey s.db (shotKey shot.toShotWithoutPayload) = none)
      (hlocked : ¬ s.Locked shot.toShotWithoutPayload)
      (hkeys : ¬ violatesKeys s.db shot.toShotWithoutPayload) :
      Statement i s (.insertShot shot began) { s with shots := s.shots ++ [(i, shot)] }
        (.insertEvent shot began)
  | event {shot : NormalisedShot} (began : ℤ) {event : OutboxEvent}
      (htype : event.event_type = "shot.persisted")
      (hpayload : event.payload = shot.toShotWithoutPayload) :
      Statement i s (.insertEvent shot began)
        { s with
          db := { s.db with nextEventId := s.db.nextEventId + 1 }
          outbox_events := s.outbox_events ++ [(i, event)] }
        (.commit shot ⟨true, shot.canonical_shot_id⟩)
  | existing {shot existing : NormalisedShot}
      (hfind : findByIdempotencyKey s.db (shotKey shot.toShotWithoutPayload) = some existing) :
      Statement i s (.selectExisting shot) s (.commit shot ⟨false, existing.canonical_shot_id⟩)
  | commit (shot : NormalisedShot) (result : UpsertResult) :
      Statement i s (.commit shot result) (s.publish i) (.committed shot result)

theorem statement_cases {i : ℕ} {s s' : Transactions} {call call' : UpsertState}
    (h : s.statement i call = some (s', call')) : Statement i s call s' call' := by
  cases call with
  | started shot =>
      obtain ⟨rfl, rfl⟩ := Prod.mk.inj (Option.some.inj h)
      exact .begin shot
  | insertShot shot began =>
      rw [statement] at h
      split at h
      case isFalse => exact absurd h (by simp)
      case isTrue haccepted =>
        cases hfind : findByIdempotencyKey s.db (shotKey shot.toShotWithoutPayload) with
        | some existing =>
            simp only [hfind] at h
            obtain ⟨rfl, rfl⟩ := Prod.mk.inj (Option.some.inj h)
            exact .conflict began haccepted
        | none =>
            simp only [hfind] at h
            split at h
            · exact absurd h (by simp)
            · rename_i hnot
              obtain ⟨hlocked, hkeys⟩ := not_or.mp hnot
              obtain ⟨rfl, rfl⟩ := Prod.mk.inj (Option.some.inj h)
              exact .insert began haccepted hfind hlocked hkeys
  | insertEvent shot began =>
      obtain ⟨rfl, rfl⟩ := Prod.mk.inj (Option.some.inj h)
      exact .event began rfl rfl
  | selectExisting shot =>
      obtain ⟨existing, hfind, heq⟩ := Option.map_eq_some_iff.mp h
      obtain ⟨rfl, rfl⟩ := Prod.mk.inj heq
      exact .existing hfind
  | commit shot result =>
      obtain ⟨rfl, rfl⟩ := Prod.mk.inj (Option.some.inj h)
      exact .commit shot result
  | committed shot result => exact absurd h (by simp [statement])
  | aborted shot => exact absurd h (by simp [statement])

theorem abort_cases {i : ℕ} {s s' : Transactions} {call call' : UpsertState}
    (h : s.abort i call = some (s', call')) :
    s' = s.rollback i ∧ (∃ shot, call' = .aborted shot) ∧
      ∀ shot result, call ≠ .committed shot result := by
  cases call with
  | committed shot result => exact absurd h (by simp [abort])
  | aborted shot => exact absurd h (by simp [abort])
  | _ =>
      obtain ⟨rfl, rfl⟩ := Prod.mk.inj (Option.some.inj h)
      exact ⟨rfl, ⟨_, rfl⟩, fun shot result => by simp⟩

/-! ### What holds of each call -/

/-- The rows a call has written and not committed. -/
def written : Option UpsertState → List NormalisedShot
  | some (.insertEvent shot _) => [shot]
  | some (.commit shot ⟨true, _⟩) => [shot]
  | _ => []

/-- Type and payload of the events a call has written and not committed. -/
def announced : Option UpsertState → List (String × ShotWithoutPayload)
  | some (.commit shot ⟨true, _⟩) => [("shot.persisted", shot.toShotWithoutPayload)]
  | _ => []

/-- What a call can rely on in the committed tables. -/
inductive Known (db : Database) : UpsertState → Prop
  | started (shot : NormalisedShot) : Known db (.started shot)
  | insertShot (shot : NormalisedShot) (began : ℤ) : Known db (.insertShot shot began)
  | insertEvent (shot : NormalisedShot) (began : ℤ) : Known db (.insertEvent shot began)
  | selectExisting {shot : NormalisedShot} (haccepted : ShotAccepted shot) :
      Known db (.selectExisting shot)
  | commitInserted (shot : NormalisedShot) :
      Known db (.commit shot ⟨true, shot.canonical_shot_id⟩)
  | commitExisting {shot row : NormalisedShot} (haccepted : ShotAccepted shot)
      (hfind : findByIdempotencyKey db (shotKey shot.toShotWithoutPayload) = some row) :
      Known db (.commit shot ⟨false, row.canonical_shot_id⟩)
  | inserted {shot : NormalisedShot} (hmem : shot ∈ db.shots) :
      Known db (.committed shot ⟨true, shot.canonical_shot_id⟩)
  | existing {shot row : NormalisedShot}
      (hfind : findByIdempotencyKey db (shotKey shot.toShotWithoutPayload) = some row) :
      Known db (.committed shot ⟨false, row.canonical_shot_id⟩)
  | aborted (shot : NormalisedShot) : Known db (.aborted shot)

theorem findByIdempotencyKey_append {db : Database} {key : Vendor × String}
    {row : NormalisedShot} (rows : List NormalisedShot)
    (h : findByIdempotencyKey db key = some row) :
    findByIdempotencyKey { db with shots := db.shots ++ rows } key = some row := by
  rw [findByIdempotencyKey, List.find?_append, ← findByIdempotencyKey, h, Option.some_or]

/-- Rows are only added, so what a call relies on stays. -/
theorem Known.append {db db' : Database} {call : UpsertState} {rows : List NormalisedShot}
    (h : Known db call) (hrows : db'.shots = db.shots ++ rows) : Known db' call := by
  have hfind (key : Vendor × String) (row : NormalisedShot)
      (h : findByIdempotencyKey db key = some row) : findByIdempotencyKey db' key = some row := by
    rw [← findByIdempotencyKey_append rows h, findByIdempotencyKey, hrows, findByIdempotencyKey]
  cases h with
  | selectExisting haccepted => exact .selectExisting haccepted
  | commitExisting haccepted hrow => exact .commitExisting haccepted (hfind _ _ hrow)
  | inserted hmem => exact .inserted (hrows ▸ List.mem_append_left rows hmem)
  | existing hrow => exact .existing (hfind _ _ hrow)
  | _ => constructor

structure Holds (s : Transactions) (i : ℕ) (call : Option UpsertState) : Prop where
  shots : s.shots.of i = written call
  outbox_events : (s.outbox_events.of i).map (fun event => (event.event_type, event.payload)) =
    announced call
  known : ∀ p ∈ call, Known s.db p

/-- The steps of one call leave what holds of the others. -/
theorem Holds.frame {s s' : Transactions} {i : ℕ} {call : Option UpsertState}
    {rows : List NormalisedShot} (h : Holds s i call) (hshots : s'.shots.of i = s.shots.of i)
    (hevents : s'.outbox_events.of i = s.outbox_events.of i)
    (hrows : s'.db.shots = s.db.shots ++ rows) : Holds s' i call where
  shots := hshots.trans h.shots
  outbox_events := hevents.symm ▸ h.outbox_events
  known p hp := (h.known p hp).append hrows

theorem Holds.moved {s : Transactions} {i : ℕ} {p q : UpsertState} (h : Holds s i (some p))
    (hwritten : written (some q) = written (some p))
    (hannounced : announced (some q) = announced (some p)) (hknown : Known s.db q) :
    Holds s i (some q) where
  shots := h.shots.trans hwritten.symm
  outbox_events := h.outbox_events.trans hannounced.symm
  known _ hr := Option.some.inj hr ▸ hknown

/-! ### The invariant -/

/-- A row that can be added to the tables. -/
structure Insertable (db : Database) (row : NormalisedShot) : Prop where
  accepted : ShotAccepted row
  fresh : findByIdempotencyKey db (shotKey row.toShotWithoutPayload) = none
  keys : ¬ violatesKeys db row.toShotWithoutPayload

structure Apart (row other : NormalisedShot) : Prop where
  key : shotKey row.toShotWithoutPayload ≠ shotKey other.toShotWithoutPayload
  id : row.canonical_shot_id ≠ other.canonical_shot_id

instance : Std.Symm fun write other : ℕ × NormalisedShot => Apart write.2 other.2 where
  symm _ _ h := ⟨h.key.symm, h.id.symm⟩

theorem Insertable.append {db : Database} {row new : NormalisedShot} (h : Insertable db row)
    (hapart : Apart row new) : Insertable { db with shots := db.shots ++ [new] } row where
  accepted := h.accepted
  fresh := by
    rw [findByIdempotencyKey, List.find?_append, ← findByIdempotencyKey, h.fresh, Option.none_or]
    simp [hapart.key.symm]
  keys := by
    rintro (⟨other, hmem, hid⟩ | ⟨o, ho, hself, hmissing⟩)
    · obtain hmem | hmem := List.mem_append.mp hmem
      · exact h.keys (.inl ⟨other, hmem, hid⟩)
      · obtain rfl := List.mem_singleton.mp hmem
        exact hapart.id hid.symm
    · refine h.keys (.inr ⟨o, ho, hself, fun other hmem => ?_⟩)
      exact hmissing other (List.mem_append_left _ hmem)

/-- Call `i` has inserted the row and has committed. -/
def Inserted (threads : ℕ → Option UpsertState) (i : ℕ) (row : NormalisedShot) : Prop :=
  threads i = some (.committed row ⟨true, row.canonical_shot_id⟩)

structure Inv (c : Config ℕ Transactions UpsertState) : Prop where
  calls : ∀ i, Holds c.shared i (c.threads i)
  pending : ∀ write ∈ c.shared.shots, Insertable c.shared.db write.2
  apart : c.shared.shots.Pairwise fun write other => Apart write.2 other.2
  keys : (c.shared.db.shots.map fun row => shotKey row.toShotWithoutPayload).Nodup
  events : (tablesOf c.shared.db).events =
    c.shared.db.shots.map fun row => ("shot.persisted", row.toShotWithoutPayload)
  inserted : ∀ row ∈ c.shared.db.shots, ∃ i, Inserted c.threads i row
  once : ∀ i j row other, Inserted c.threads i row → Inserted c.threads j other →
    shotKey row.toShotWithoutPayload = shotKey other.toShotWithoutPayload → i = j

variable {c c' : Config ℕ Transactions UpsertState} {s : Transactions} {i : ℕ}
  {p q : UpsertState}

/-- A step that commits no row keeps what is said about the tables. -/
theorem Inv.of_tables (h : Inv c) (hshots : c'.shared.db.shots = c.shared.db.shots)
    (hevents : c'.shared.db.outbox_events = c.shared.db.outbox_events)
    (hcalls : ∀ i, Holds c'.shared i (c'.threads i))
    (hpending : ∀ write ∈ c'.shared.shots, Insertable c'.shared.db write.2)
    (hapart : c'.shared.shots.Pairwise fun write other => Apart write.2 other.2)
    (hinserted : ∀ i row, Inserted c'.threads i row ↔ Inserted c.threads i row) : Inv c' where
  calls := hcalls
  pending := hpending
  apart := hapart
  keys := hshots ▸ h.keys
  events := by
    rw [tablesOf, hevents, hshots]
    exact h.events
  inserted row hrow := by
    obtain ⟨i, hi⟩ := h.inserted row (hshots ▸ hrow)
    exact ⟨i, (hinserted i row).mpr hi⟩
  once i j row other hi hj hkey :=
    h.once i j row other ((hinserted i row).mp hi) ((hinserted j other).mp hj) hkey

theorem holds_update (hown : Holds s i (some q)) (hothers : ∀ j, j ≠ i → Holds s j (c.threads j))
    (j : ℕ) : Holds s j (Function.update c.threads i (some q) j) := by
  by_cases hji : j = i
  · subst j
    rwa [Function.update_self]
  · rw [Function.update_of_ne hji]
    exact hothers j hji

theorem inserted_update (hp : ∀ row, ¬ Inserted c.threads i row)
    (hq : ∀ row, q ≠ .committed row ⟨true, row.canonical_shot_id⟩) (j : ℕ) (row : NormalisedShot) :
    Inserted (Function.update c.threads i (some q)) j row ↔ Inserted c.threads j row := by
  by_cases hji : j = i
  · subst j
    rw [Inserted, Function.update_self, Option.some_inj]
    exact iff_of_false (hq row) (hp row)
  · rw [Inserted, Inserted, Function.update_of_ne hji]

theorem not_inserted (hi : c.threads i = some p) (hp : ∀ shot result, p ≠ .committed shot result)
    (row : NormalisedShot) : ¬ Inserted c.threads i row := by
  intro h
  exact hp _ _ (Option.some.inj (hi.symm.trans h))

theorem Inv.begin (h : Inv c) (hi : c.threads i = none) (shot : NormalisedShot) :
    Inv { c with threads := Function.update c.threads i (some (.started shot)) } := by
  have hcall := h.calls i
  rw [hi] at hcall
  refine h.of_tables rfl rfl (holds_update ⟨hcall.shots, hcall.outbox_events, ?_⟩
    fun j _ => h.calls j) h.pending h.apart (inserted_update (fun row hrow => ?_) (by simp))
  · rintro _ ⟨⟩
    exact .started shot
  · exact absurd (hi.symm.trans hrow) (by simp)

theorem Inv.tick (h : Inv c) (ms : ℕ) : Inv { c with shared := c.shared.tick ms } := by
  refine h.of_tables rfl rfl (fun i => ?_) (fun write hwrite => ?_) h.apart fun i row => Iff.rfl
  · exact (h.calls i).frame rfl rfl (List.append_nil _).symm
  · obtain ⟨haccepted, hfresh, hkeys⟩ := h.pending write hwrite
    exact ⟨haccepted, hfresh, hkeys⟩

/-- A call has moved, and neither table nor pending write has changed. -/
theorem Inv.move (h : Inv c) (hi : c.threads i = some p)
    (hp : ∀ shot result, p ≠ .committed shot result)
    (hq : ∀ shot result, q ≠ .committed shot result)
    (hwritten : written (some q) = written (some p))
    (hannounced : announced (some q) = announced (some p)) (hknown : Known c.shared.db q) :
    Inv { c with threads := Function.update c.threads i (some q) } := by
  have hcall := h.calls i
  rw [hi] at hcall
  exact h.of_tables rfl rfl
    (holds_update (hcall.moved hwritten hannounced hknown) fun j _ => h.calls j)
    h.pending h.apart (inserted_update (not_inserted hi hp) fun row => hq _ _)

theorem Inv.insert {shot : NormalisedShot} {began : ℤ} (h : Inv c)
    (hi : c.threads i = some (.insertShot shot began))
    (hnew : Insertable c.shared.db shot) (hlocked : ¬ c.shared.Locked shot.toShotWithoutPayload) :
    Inv ⟨{ c.shared with shots := c.shared.shots ++ [(i, shot)] },
      Function.update c.threads i (some (.insertEvent shot began))⟩ := by
  have hcall := h.calls i
  rw [hi] at hcall
  refine h.of_tables rfl rfl (holds_update ⟨?_, hcall.outbox_events, ?_⟩ fun j hji => ?_)
    (fun write hwrite => ?_) ?_ (inserted_update (not_inserted hi (by simp)) (by simp))
  · rw [WriteSets.of_append_self, hcall.shots]
    rfl
  · rintro _ ⟨⟩
    exact .insertEvent shot began
  · exact (h.calls j).frame (WriteSets.of_append_of_ne hji) rfl (List.append_nil _).symm
  · obtain hwrite | hwrite := List.mem_append.mp hwrite
    · exact h.pending write hwrite
    · obtain rfl := List.mem_singleton.mp hwrite
      exact hnew
  · refine List.pairwise_append.mpr ⟨h.apart, List.pairwise_singleton _ _, ?_⟩
    intro write hwrite _ hnew
    obtain rfl := List.mem_singleton.mp hnew
    exact ⟨fun hkey => hlocked ⟨write, hwrite, .inl hkey⟩,
      fun hid => hlocked ⟨write, hwrite, .inr hid⟩⟩

theorem Inv.event {shot : NormalisedShot} {began : ℤ} {event : OutboxEvent} (h : Inv c)
    (hi : c.threads i = some (.insertEvent shot began))
    (htype : event.event_type = "shot.persisted")
    (hpayload : event.payload = shot.toShotWithoutPayload) :
    Inv ⟨{ c.shared with
        db := { c.shared.db with nextEventId := c.shared.db.nextEventId + 1 }
        outbox_events := c.shared.outbox_events ++ [(i, event)] },
      Function.update c.threads i (some (.commit shot ⟨true, shot.canonical_shot_id⟩))⟩ := by
  have hcall := h.calls i
  rw [hi] at hcall
  refine h.of_tables rfl rfl (holds_update ⟨hcall.shots, ?_, ?_⟩ fun j hji => ?_)
    (fun write hwrite => ?_) h.apart (inserted_update (not_inserted hi (by simp)) (by simp))
  · rw [WriteSets.of_append_self, List.map_append, hcall.outbox_events, announced,
      List.map_singleton, htype, hpayload]
    rfl
  · rintro _ ⟨⟩
    exact .commitInserted shot
  · exact (h.calls j).frame rfl (WriteSets.of_append_of_ne hji) (List.append_nil _).symm
  · obtain ⟨haccepted, hfresh, hkeys⟩ := h.pending write hwrite
    exact ⟨haccepted, hfresh, hkeys⟩

theorem Inv.abort {shot : NormalisedShot} (h : Inv c) (hi : c.threads i = some p)
    (hp : ∀ shot result, p ≠ .committed shot result) :
    Inv ⟨c.shared.rollback i, Function.update c.threads i (some (.aborted shot))⟩ := by
  refine h.of_tables rfl rfl (holds_update ⟨WriteSets.of_without_self, ?_, ?_⟩ fun j hji => ?_)
    (fun write hwrite => h.pending write (WriteSets.mem_without.mp hwrite).1)
    (h.apart.filter _) (inserted_update (not_inserted hi hp) (by simp))
  · rw [rollback, WriteSets.of_without_self]
    rfl
  · rintro _ ⟨⟩
    exact .aborted shot
  · exact (h.calls j).frame (WriteSets.of_without_of_ne hji) (WriteSets.of_without_of_ne hji)
      (List.append_nil _).symm

theorem Inv.commitExisting {shot row : NormalisedShot} (h : Inv c)
    (hi : c.threads i = some (.commit shot ⟨false, row.canonical_shot_id⟩))
    (hfind : findByIdempotencyKey c.shared.db (shotKey shot.toShotWithoutPayload) = some row) :
    Inv ⟨c.shared.publish i, Function.update c.threads i
      (some (.committed shot ⟨false, row.canonical_shot_id⟩))⟩ := by
  have hcall := h.calls i
  rw [hi] at hcall
  have hshots : c.shared.shots.of i = [] := hcall.shots
  have hevents : c.shared.outbox_events.of i = [] := List.map_eq_nil_iff.mp hcall.outbox_events
  have hdb : (c.shared.publish i).db = c.shared.db := by
    rw [publish, hshots, hevents, List.append_nil, List.append_nil]
  refine h.of_tables (by rw [hdb]) (by rw [hdb])
    (holds_update ⟨WriteSets.of_without_self, ?_, ?_⟩ fun j hji => ?_) (fun write hwrite => ?_)
    (h.apart.filter _) (inserted_update (not_inserted hi (by simp)) (by simp))
  · rw [publish, WriteSets.of_without_self]
    rfl
  · rintro _ ⟨⟩
    exact .existing (hdb.symm ▸ hfind)
  · exact (h.calls j).frame (WriteSets.of_without_of_ne hji) (WriteSets.of_without_of_ne hji) rfl
  · exact hdb.symm ▸ h.pending write (WriteSets.mem_without.mp hwrite).1

theorem Inv.commitInserted {shot : NormalisedShot} (h : Inv c)
    (hi : c.threads i = some (.commit shot ⟨true, shot.canonical_shot_id⟩)) :
    Inv ⟨c.shared.publish i, Function.update c.threads i
      (some (.committed shot ⟨true, shot.canonical_shot_id⟩))⟩ := by
  have hcall := h.calls i
  rw [hi] at hcall
  have hof : c.shared.shots.of i = [shot] := hcall.shots
  have hmem : (i, shot) ∈ c.shared.shots := WriteSets.mem_of.mp (hof ▸ List.mem_singleton_self _)
  have hnew := h.pending _ hmem
  have hshots : (c.shared.publish i).db.shots = c.shared.db.shots ++ [shot] := by
    rw [publish, hof]
  have hinserted (j : ℕ) (row : NormalisedShot) (hj : Inserted c.threads j row) : j ≠ i := by
    rintro rfl
    exact not_inserted hi (by simp) row hj
  have hfresh (j : ℕ) (row : NormalisedShot) (hj : Inserted c.threads j row) :
      shotKey row.toShotWithoutPayload ≠ shotKey shot.toShotWithoutPayload := by
    cases (h.calls j).known _ hj with
    | inserted hrow => simpa using List.find?_eq_none.mp hnew.fresh row hrow
  constructor
  case calls =>
    refine holds_update ⟨WriteSets.of_without_self, ?_, ?_⟩ fun j hji => ?_
    · rw [publish, WriteSets.of_without_self]
      rfl
    · rintro _ ⟨⟩
      exact .inserted (hshots ▸ List.mem_append_right _ (List.mem_singleton_self _))
    · exact (h.calls j).frame (WriteSets.of_without_of_ne hji) (WriteSets.of_without_of_ne hji) rfl
  case pending =>
    intro write hwrite
    obtain ⟨hwrite, hne⟩ := WriteSets.mem_without.mp hwrite
    have hapart : Apart write.2 shot := h.apart.forall hwrite hmem fun heq => hne (heq ▸ rfl)
    obtain ⟨haccepted, hfind, hkeys⟩ := (h.pending write hwrite).append hapart
    rw [publish, hof]
    exact ⟨haccepted, hfind, hkeys⟩
  case apart => exact h.apart.filter _
  case keys =>
    rw [hshots, List.map_append, List.map_singleton]
    refine List.nodup_append.mpr ⟨h.keys, List.nodup_singleton _, ?_⟩
    intro key hkey key' hkey'
    obtain ⟨row, hrow, rfl⟩ := List.mem_map.mp hkey
    obtain rfl := List.mem_singleton.mp hkey'
    simpa using List.find?_eq_none.mp hnew.fresh row hrow
  case events =>
    rw [hshots, List.map_append, ← h.events, tablesOf, publish, List.map_append,
      hcall.outbox_events]
    rfl
  case inserted =>
    intro row hrow
    rw [hshots, List.mem_append, List.mem_singleton] at hrow
    obtain hrow | rfl := hrow
    · obtain ⟨j, hj⟩ := h.inserted row hrow
      exact ⟨j, (Function.update_of_ne (hinserted j row hj) ..).trans hj⟩
    · exact ⟨i, Function.update_self ..⟩
  case once =>
    intro j k row other hj hk hkey
    obtain ⟨rfl, heq⟩ | ⟨_, hj'⟩ := Program.update_cases hj
    · obtain ⟨rfl, _⟩ | ⟨_, hk'⟩ := Program.update_cases hk
      · rfl
      · cases heq
        exact absurd hkey.symm (hfresh k other hk')
    · obtain ⟨rfl, heq⟩ | ⟨_, hk'⟩ := Program.update_cases hk
      · cases heq
        exact absurd hkey (hfresh j row hj')
      · exact h.once j k row other hj' hk' hkey

theorem Inv.statement (h : Inv c) (hi : c.threads i = some p)
    (hstep : Statement i c.shared p s q) :
    Inv ⟨s, Function.update c.threads i (some q)⟩ := by
  cases hstep with
  | begin shot => exact h.move hi (by simp) (by simp) rfl rfl (.insertShot shot _)
  | conflict began haccepted =>
      exact h.move hi (by simp) (by simp) rfl rfl (.selectExisting haccepted)
  | insert began haccepted hfind hlocked hkeys =>
      exact h.insert hi ⟨haccepted, hfind, hkeys⟩ hlocked
  | event began htype hpayload => exact h.event hi htype hpayload
  | existing hfind =>
      have hcall := h.calls i
      rw [hi] at hcall
      cases hcall.known _ rfl with
      | selectExisting haccepted =>
          exact h.move hi (by simp) (by simp) rfl rfl (.commitExisting haccepted hfind)
  | commit shot result =>
      have hcall := h.calls i
      rw [hi] at hcall
      cases hcall.known _ rfl with
      | commitInserted => exact h.commitInserted hi
      | commitExisting haccepted hfind => exact h.commitExisting hi hfind

theorem Inv.exec {a : Action ℕ UpsertState Outcome ℕ} (h : Inv c) (hstart : OnlyUpserts c a)
    (hexec : system.exec c a = some c') : Inv c' := by
  obtain ⟨i, p, rfl, hi, rfl⟩ | ⟨i, e, p, s, q, rfl, hi, hstep, rfl⟩ | ⟨ms, s, rfl, htick, rfl⟩ :=
    Program.exec_cases hexec
  · obtain ⟨shot, rfl⟩ := hstart
    exact h.begin hi shot
  · cases e with
    | ok => exact h.statement hi (statement_cases hstep)
    | abort =>
        obtain ⟨rfl, ⟨shot, rfl⟩, hp⟩ := abort_cases hstep
        exact h.abort hi hp
  · obtain rfl := Option.some.inj htick
    exact h.tick ms

theorem inv_of_reach (h : system.Reach OnlyUpserts c) : Inv c := by
  refine h.invariant (fun c hinit => ?_) fun c a c' hc hstart hexec => hc.exec hstart hexec
  obtain ⟨⟨hshots, hevents, hpending, hannounced⟩, hthreads⟩ := hinit
  constructor
  case calls =>
    intro i
    rw [hthreads i]
    refine ⟨by rw [hpending]; rfl, by rw [hannounced]; rfl, ?_⟩
    rintro _ ⟨⟩
  case pending => simp [hpending]
  case apart => simp [hpending]
  case keys => simp [hshots]
  case events => simp [tablesOf, hshots, hevents]
  case inserted => simp [hshots]
  case once => simp [Inserted, hthreads]

/-! ### The transaction as one step -/

/-- At its commit a call does what `upsertIfNew` does in one step. -/
theorem Inv.commit_refines {shot : NormalisedShot} {result : UpsertResult} (h : Inv c)
    (hi : c.threads i = some (.commit shot result)) :
    (upsertIfNew c.shared.db shot).map (fun r => (tablesOf r.1, r.2)) =
      some (tablesOf (c.shared.publish i).db, result) := by
  have hcall := h.calls i
  rw [hi] at hcall
  cases hcall.known _ rfl with
  | commitInserted =>
      have hof : c.shared.shots.of i = [shot] := hcall.shots
      obtain ⟨haccepted, hfresh, hkeys⟩ :=
        h.pending (i, shot) (WriteSets.mem_of.mp (hof ▸ List.mem_singleton_self _))
      have htables : tablesOf (c.shared.publish i).db =
          tablesOf (Database.insertShot c.shared.db shot) := by
        rw [tablesOf_insertShot, tablesOf, publish, hof, List.map_append, hcall.outbox_events]
        rfl
      rw [htables, upsertIfNew, if_pos haccepted]
      simp only [hfresh, if_neg hkeys, Option.map_some]
      rfl
  | @commitExisting _ row haccepted hfind =>
      have hshots : c.shared.shots.of i = [] := hcall.shots
      have htables : tablesOf (c.shared.publish i).db = tablesOf c.shared.db := by
        rw [tablesOf, publish, hshots, List.map_append, hcall.outbox_events, List.append_nil]
        exact congrArg (Tables.mk _) (List.append_nil _)
      rw [htables, upsertIfNew, if_pos haccepted]
      simp only [hfind, Option.map_some]

/-- The calls, statement by statement, refine the one-step transaction: a
commit is that step, and nothing else changes shots or events. -/
theorem transactions_refine {a : Action ℕ UpsertState Outcome ℕ}
    (hreach : system.Reach OnlyUpserts c) (hexec : system.exec c a = some c') :
    tablesOf c'.shared.db = tablesOf c.shared.db ∨
      ∃ i shot result, c'.threads i = some (.committed shot result) ∧
        (upsertIfNew c.shared.db shot).map (fun r => (tablesOf r.1, r.2)) =
          some (tablesOf c'.shared.db, result) := by
  obtain ⟨i, p, rfl, hi, rfl⟩ | ⟨i, e, p, s, q, rfl, hi, hstep, rfl⟩ | ⟨ms, s, rfl, htick, rfl⟩ :=
    Program.exec_cases hexec
  · exact .inl rfl
  · cases e with
    | ok =>
        cases statement_cases hstep with
        | commit shot result =>
            exact .inr ⟨i, shot, result, Function.update_self ..,
              (inv_of_reach hreach).commit_refines hi⟩
        | _ => exact .inl rfl
    | abort =>
        obtain ⟨rfl, _, _⟩ := abort_cases hstep
        exact .inl rfl
  · obtain rfl := Option.some.inj htick
    exact .inl rfl

/-! ### Exact deduplication -/

/-- The answers of the calls that have committed, and the rows and events
they have left. -/
structure ExactlyOnce (c : Config ℕ Transactions UpsertState) : Prop where
  /-- No two rows have the same key. -/
  keys : (c.shared.db.shots.map fun row => shotKey row.toShotWithoutPayload).Nodup
  /-- Of the calls with a key that have committed, exactly one has inserted. -/
  one_inserted : ∀ i shot result, c.threads i = some (.committed shot result) →
    ∃! j, ∃ other other', c.threads j = some (.committed other other') ∧
      shotKey other.toShotWithoutPayload = shotKey shot.toShotWithoutPayload ∧
      other'.inserted = true
  /-- A call answers with the id of the stored row of its key, which is the
  row of the call itself when it has inserted. -/
  stored : ∀ i shot result, c.threads i = some (.committed shot result) →
    ∃ row ∈ c.shared.db.shots,
      shotKey row.toShotWithoutPayload = shotKey shot.toShotWithoutPayload ∧
      result.canonical_shot_id = row.canonical_shot_id ∧ (result.inserted = true → row = shot)
  /-- Every row is that of a call that has inserted it. -/
  inserted : ∀ row ∈ c.shared.db.shots,
    ∃ i, c.threads i = some (.committed row ⟨true, row.canonical_shot_id⟩)
  /-- One event for each row, with the row's shot. -/
  events : c.shared.db.outbox_events.map (fun event => (event.event_type, event.payload)) =
    c.shared.db.shots.map fun row => ("shot.persisted", row.toShotWithoutPayload)

theorem Known.stored {db : Database} {shot : NormalisedShot} {result : UpsertResult}
    (h : Known db (.committed shot result)) :
    ∃ row ∈ db.shots, shotKey row.toShotWithoutPayload = shotKey shot.toShotWithoutPayload ∧
      result.canonical_shot_id = row.canonical_shot_id ∧
      (result.inserted = true → row = shot) := by
  cases h with
  | inserted hmem => exact ⟨shot, hmem, rfl, rfl, fun _ => rfl⟩
  | @existing _ row hfind =>
      exact ⟨row, List.mem_of_find?_eq_some hfind, by simpa using List.find?_some hfind, rfl,
        by simp⟩

theorem Known.inserted_id {db : Database} {shot : NormalisedShot} {result : UpsertResult}
    (h : Known db (.committed shot result)) (hinserted : result.inserted = true) :
    result = ⟨true, shot.canonical_shot_id⟩ := by
  cases h with
  | inserted hmem => rfl
  | existing hfind => exact absurd hinserted (by simp)

/-- Exact deduplication and one event for each row, whatever calls there are,
in whatever order their statements run and whichever are rolled back. -/
theorem upserts_exactly_once (hreach : system.Reach OnlyUpserts c) : ExactlyOnce c := by
  have h := inv_of_reach hreach
  have hknown (i : ℕ) (shot : NormalisedShot) (result : UpsertResult)
      (hi : c.threads i = some (.committed shot result)) :
      Known c.shared.db (.committed shot result) := (h.calls i).known _ hi
  refine ⟨h.keys, fun i shot result hi => ?_,
    fun i shot result hi => (hknown i shot result hi).stored, h.inserted, h.events⟩
  obtain ⟨row, hmem, hkey, _, _⟩ := (hknown i shot result hi).stored
  obtain ⟨j, hj⟩ := h.inserted row hmem
  refine ⟨j, ⟨row, _, hj, hkey, rfl⟩, ?_⟩
  rintro k ⟨other, result', hk, hkey', hinserted⟩
  obtain rfl := (hknown k other result' hk).inserted_id hinserted
  exact h.once k j other row hk hj (hkey'.trans hkey.symm)

/-! ### A drive that is sent three times -/

/-- Nothing is stored, and no call runs. -/
def noUpserts : Config ℕ Transactions UpsertState :=
  ⟨⟨Database.empty 1710498600000, [], []⟩, fun _ => none⟩

def sentDrive (ulid : String) : NormalisedShot :=
  Webhooks.driveShot Webhooks.driveSha256 ulid Webhooks.firstDrive 1710498606000

/-- The first call is rolled back between its writes and its commit, the
second inserts the row, and the third finds it. -/
def resentActions : List (Action ℕ UpsertState Outcome ℕ) :=
  [.spawn 0 (.started (sentDrive Webhooks.firstId)),
    .spawn 1 (.started (sentDrive Webhooks.secondId)),
    .spawn 2 (.started (sentDrive "01HS0N8R9M0000000000000003")),
    .step 0 .ok, .step 1 .ok, .step 2 .ok, .step 0 .ok, .step 0 .ok, .step 0 .abort,
    .step 1 .ok, .step 1 .ok, .step 1 .ok, .step 2 .ok, .step 2 .ok, .step 2 .ok]

def afterResent : Config ℕ Transactions UpsertState :=
  (system.execAll noUpserts resentActions).getD noUpserts

/-- The row is the second call's, with the one event, and the third call has its id. -/
theorem upserts_exactly_once_afterResent :
    afterResent.shared.db.shots.map (·.canonical_shot_id) = [Webhooks.secondId] ∧
      afterResent.shared.db.outbox_events.map (·.payload.canonical_shot_id) =
        [Webhooks.secondId] ∧
      ExactlyOnce afterResent := by
  obtain ⟨hsome, hshots, hevents⟩ :
      (system.execAll noUpserts resentActions).isSome = true ∧
        afterResent.shared.db.shots.map (·.canonical_shot_id) = [Webhooks.secondId] ∧
        afterResent.shared.db.outbox_events.map (·.payload.canonical_shot_id) =
          [Webhooks.secondId] := by
    decide +kernel
  have hreach : system.Reach OnlyUpserts afterResent := by
    refine ⟨noUpserts, resentActions, ⟨⟨rfl, rfl, rfl, rfl⟩, fun _ => rfl⟩,
      System.run_of_isSome (fun a ha c => ?_) hsome⟩
    cases a with
    | spawn i call =>
        simp only [resentActions, List.mem_cons, Action.spawn.injEq, reduceCtorEq] at ha
        obtain ⟨-, rfl⟩ | ⟨-, rfl⟩ | ⟨-, rfl⟩ | ha := ha
        · exact ⟨_, rfl⟩
        · exact ⟨_, rfl⟩
        · exact ⟨_, rfl⟩
        · exact absurd ha (by simp)
    | step i e => trivial
    | env ms => trivial
  exact ⟨hshots, hevents, upserts_exactly_once hreach⟩

end Transactions

end PureplayIngest.Ingestion
