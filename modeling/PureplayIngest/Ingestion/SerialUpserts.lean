import PureplayIngest.Ingestion.UpsertTransactions
import PureplayIngest.Lib.Serial

/-!
The calls of `upsertIfNew` have an order.

However the statements of the calls are interleaved and whichever of them are
rolled back, those that have committed have returned what they return one after
the other, and left the tables as they do then. It is what entitles the other
parts of the model to take the transaction as one step.
-/

namespace PureplayIngest.Ingestion

open Shared.Domain Shared.Kysely Lib

/-- Calls of `upsertIfNew` one after the other; `none` when one of them fails. -/
def inTurn (db : Database) : List NormalisedShot → Option (Database × List UpsertResult)
  | [] => some (db, [])
  | shot :: shots =>
      (upsertIfNew db shot).bind fun r =>
        (inTurn r.1 shots).map fun rest => (rest.1, r.2 :: rest.2)

theorem inTurn_concat {db db₁ db₂ : Database} {shots : List NormalisedShot}
    {results : List UpsertResult} {shot : NormalisedShot} {result : UpsertResult}
    (h : inTurn db shots = some (db₁, results))
    (hlast : upsertIfNew db₁ shot = some (db₂, result)) :
    inTurn db (shots ++ [shot]) = some (db₂, results ++ [result]) := by
  induction shots generalizing db results with
  | nil =>
      obtain ⟨rfl, rfl⟩ := Prod.mk.inj (Option.some.inj h)
      rw [List.nil_append, inTurn, hlast]
      rfl
  | cons first shots ih =>
      rw [inTurn, Option.bind_eq_some_iff] at h
      obtain ⟨⟨db', answer⟩, hfirst, hrest⟩ := h
      obtain ⟨⟨_, answers⟩, hshots, heq⟩ := Option.map_eq_some_iff.mp hrest
      obtain ⟨rfl, rfl⟩ := Prod.mk.inj heq
      rw [List.cons_append, inTurn, hfirst, Option.bind_some, ih hshots]
      rfl

/-- What is decided and what is left depend on the tables only. -/
theorem upsertIfNew_of_tables {db db' other : Database} {shot : NormalisedShot}
    {result : UpsertResult} (h : upsertIfNew db shot = some (db', result))
    (htables : tablesOf other = tablesOf db) :
    ∃ other', upsertIfNew other shot = some (other', result) ∧ tablesOf other' = tablesOf db' := by
  have hshots : other.shots = db.shots := congrArg Tables.shots htables
  have hother := upsertIfNew_of_shots hshots shot
  rw [h, Option.map_some] at hother
  refine ⟨_, hother, ?_⟩
  obtain ⟨_, hcases⟩ := upsertIfNew_cases h
  cases hcases with
  | duplicate existing mem key eq =>
      rw [eq]
      exact htables
  | inserted fresh id eq =>
      rw [eq]
      show tablesOf (Database.insertShot other shot) = tablesOf (Database.insertShot db shot)
      rw [tablesOf_insertShot, tablesOf_insertShot, htables]

namespace Transactions

variable {c : Config ℕ Transactions UpsertState}

/-- What a call has returned. -/
def returned : UpsertState → Option (NormalisedShot × UpsertResult)
  | .committed shot result => some (shot, result)
  | _ => none

/-- What the transaction does to the tables when it is one step. -/
def OneStep (t : Tables) (call : NormalisedShot × UpsertResult) (t' : Tables) : Prop :=
  ∃ db db', tablesOf db = t ∧ upsertIfNew db call.1 = some (db', call.2) ∧ tablesOf db' = t'

theorem inTurn_of_moves (now : ℤ) {calls : List (NormalisedShot × UpsertResult)} {t : Tables}
    (h : Moves OneStep ⟨[], []⟩ calls t) :
    ∃ db, inTurn (.empty now) (calls.map Prod.fst) = some (db, calls.map Prod.snd) ∧
      tablesOf db = t := by
  -- The database may be taken for any other with the same tables, from step to step.
  generalize hstart : (⟨[], []⟩ : Tables) = start at h
  induction h with
  | nil => exact ⟨.empty now, rfl, hstart⟩
  | @snoc b d call calls moves last ih =>
      obtain ⟨db₁, hcalls, htables⟩ := ih
      obtain ⟨db, db', rfl, hupsert, rfl⟩ := last
      obtain ⟨db₂, hlast, htables'⟩ := upsertIfNew_of_tables hupsert htables
      refine ⟨db₂, ?_, htables'⟩
      rw [List.map_append, List.map_append]
      exact inTurn_concat hcalls hlast

theorem statement_returned {i : ℕ} {s s' : Transactions} {p q : UpsertState}
    (h : Statement i s p s' q) (hp : ∀ shot result, p ≠ .commit shot result) :
    tablesOf s'.db = tablesOf s.db ∧ returned q = returned p := by
  cases h with
  | commit shot result => exact absurd rfl (hp shot result)
  | _ => exact ⟨rfl, rfl⟩

/-- Every interleaving of the statements of any number of calls, whichever of them
are rolled back, is as good as an order: the calls that have committed, each once,
return the same one after the other on an empty database, and leave the same shots
and the same events. -/
theorem upserts_serializable (hreach : system.Reach OnlyUpserts c) (now : ℤ) :
    ∃ calls : List (ℕ × NormalisedShot × UpsertResult), (calls.map Prod.fst).Nodup ∧
      (∀ i shot result,
        (i, shot, result) ∈ calls ↔ c.threads i = some (.committed shot result)) ∧
      ∃ db, inTurn (.empty now) (calls.map fun call => call.2.1) =
          some (db, calls.map fun call => call.2.2) ∧ tablesOf db = tablesOf c.shared.db := by
  have hserial : ∃ calls, Program.SerialOrder OneStep (fun s => tablesOf s.db) returned
      ⟨[], []⟩ c calls := by
    refine Program.exists_serialOrder (P := program) (G := OnlyUpserts) ?_ ?_ ?_ ?_ hreach
    · rintro s ⟨hshots, hevents, _⟩
      rw [tablesOf, hshots, hevents]
      rfl
    · rintro c i p ⟨shot, rfl⟩
      rfl
    · intro c hc i e p s q hi hstep
      cases e with
      | ok =>
          by_cases hp : ∃ shot result, p = .commit shot result
          · obtain ⟨shot, result, rfl⟩ := hp
            obtain ⟨rfl, rfl⟩ := Prod.mk.inj (Option.some.inj hstep)
            obtain ⟨⟨db', answer⟩, hupsert, heq⟩ :=
              Option.map_eq_some_iff.mp ((inv_of_reach hc).commit_refines hi)
            obtain ⟨htables, rfl⟩ := Prod.mk.inj heq
            exact .inr ⟨rfl, _, rfl, c.shared.db, db', rfl, hupsert, htables⟩
          · exact .inl (statement_returned (statement_cases hstep) fun shot result h =>
              hp ⟨shot, result, h⟩)
      | abort =>
          obtain ⟨rfl, ⟨shot, rfl⟩, hp⟩ := abort_cases hstep
          refine .inl ⟨rfl, ?_⟩
          cases p with
          | committed shot result => exact absurd rfl (hp shot result)
          | _ => rfl
    · intro s ms s' h
      obtain rfl := Option.some.inj h
      rfl
  obtain ⟨calls, hnodup, hcalls, hmoves⟩ := hserial
  refine ⟨calls, hnodup, fun i shot result => (hcalls i (shot, result)).trans ?_, ?_⟩
  · cases c.threads i with
    | none => exact ⟨fun h => (by cases h), fun h => by cases h⟩
    | some p =>
        cases p with
        | committed shot' result' =>
            simp only [Option.bind_some, returned, Option.some.injEq, Prod.mk.injEq,
              UpsertState.committed.injEq]
        | _ => exact ⟨fun h => (by cases h), fun h => by cases h⟩
  · obtain ⟨db, hturn, htables⟩ := inTurn_of_moves now hmoves
    rw [List.map_map, List.map_map] at hturn
    exact ⟨db, hturn, htables⟩

/-! ### The drive that is sent three times -/

theorem reach_afterResent : system.Reach OnlyUpserts afterResent := by
  have hstarts : ∀ a ∈ resentActions, ∀ c, OnlyUpserts c a := by
    simp only [resentActions, List.forall_mem_cons]
    refine ⟨fun _ => ⟨_, rfl⟩, fun _ => ⟨_, rfl⟩, fun _ => ⟨_, rfl⟩, ?_⟩
    simp [OnlyUpserts]
  exact ⟨noUpserts, resentActions, ⟨⟨rfl, rfl, rfl, rfl⟩, fun _ => rfl⟩,
    System.run_of_isSome hstarts (by decide +kernel)⟩

/-- Two of the three calls have committed, and they have an order. -/
theorem upserts_serializable_afterResent :
    afterResent.shared.db.shots.length = 1 ∧
      ∃ calls : List (ℕ × NormalisedShot × UpsertResult), (calls.map Prod.fst).Nodup ∧
        (∀ i shot result,
          (i, shot, result) ∈ calls ↔ afterResent.threads i = some (.committed shot result)) ∧
        ∃ db, inTurn (.empty 0) (calls.map fun call => call.2.1) =
            some (db, calls.map fun call => call.2.2) ∧
          tablesOf db = tablesOf afterResent.shared.db :=
  ⟨by decide +kernel, upserts_serializable reach_afterResent 0⟩

end Transactions

end PureplayIngest.Ingestion
