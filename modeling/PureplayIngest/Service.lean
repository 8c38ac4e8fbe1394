import PureplayIngest.Ingestion.ShotIngestionProcessor
import PureplayIngest.Lib.Interleaving

/-!
The running service: any number of attempts of `process` and of identity
calls, their steps taken in any order, over one database and one Redis.

An attempt of `process` can fail at every step, and its job is then run
again as another call. A link or an unlink that fails is rejected, unless
nothing but the backfill is left of it, and a list goes on without its cache
entry. A read that fails just stops where it is, so it is a call none of whose
further steps is ever taken.
-/

namespace PureplayIngest

open Shared.Domain Shared.Kysely Identity Ingestion Lib

inductive Call
  | process (s : ProcessState)
  | resolve (s : ResolveState)
  | link (s : LinkState)
  | unlink (s : UnlinkState)
  | list (s : ListState)

/-- What a step leaves open: which row of those that come first a query
returns, in which order it returns them, or that it fails. -/
inductive Label
  | ok (k : ℕ)
  | order (rows : List VendorIdentity)
  | fail
  deriving DecidableEq

/-- What happens besides the steps of the calls. -/
inductive Event
  | expire (key : String)
  | tick (ms : ℕ)

namespace Service

def step (deps : Deps) (w : World) : Call → Label → Option (World × Call)
  | .process s, .ok k => (s.step deps w k).map fun (w, s) => (w, .process s)
  | .process s, .fail => s.fail.map fun s => (w, .process s)
  | .resolve s, .ok _ =>
      (s.step w.toStores).map fun (stores, s) => ({ w with toStores := stores }, .resolve s)
  | .link s, .ok _ =>
      (s.step w.toStores).map fun (stores, s) => ({ w with toStores := stores }, .link s)
  | .link s, .fail => s.fail.map fun s => (w, .link s)
  | .unlink s, .ok _ =>
      (s.step w.toStores).map fun (stores, s) => ({ w with toStores := stores }, .unlink s)
  | .unlink s, .fail => s.fail.map fun s => (w, .unlink s)
  | .list s, .order rows =>
      (s.step w.toStores rows).map fun (stores, s) => ({ w with toStores := stores }, .list s)
  | .list s, .fail => s.fail.map fun s => (w, .list s)
  | _, _ => none

def event (w : World) : Event → Option World
  | .expire key => some { w with redis := w.redis.del [key] }
  | .tick ms => some { w with db := { w.db with now := w.db.now + ms } }

/-- The steps of the calls, one kind of call after the other. -/
inductive Step (deps : Deps) (w : World) : Call → Label → World → Call → Prop
  | process {s s' : ProcessState} {k : ℕ} {w' : World} (hstep : s.step deps w k = some (w', s')) :
      Step deps w (.process s) (.ok k) w' (.process s')
  | processFail {s s' : ProcessState} (hfail : s.fail = some s') :
      Step deps w (.process s) .fail w (.process s')
  | resolve {s s' : ResolveState} {stores : Stores} (k : ℕ)
      (hstep : s.step w.toStores = some (stores, s')) :
      Step deps w (.resolve s) (.ok k) { w with toStores := stores } (.resolve s')
  | link {s s' : LinkState} {stores : Stores} (k : ℕ)
      (hstep : s.step w.toStores = some (stores, s')) :
      Step deps w (.link s) (.ok k) { w with toStores := stores } (.link s')
  | linkFail {s s' : LinkState} (hfail : s.fail = some s') :
      Step deps w (.link s) .fail w (.link s')
  | unlink {s s' : UnlinkState} {stores : Stores} (k : ℕ)
      (hstep : s.step w.toStores = some (stores, s')) :
      Step deps w (.unlink s) (.ok k) { w with toStores := stores } (.unlink s')
  | unlinkFail {s s' : UnlinkState} (hfail : s.fail = some s') :
      Step deps w (.unlink s) .fail w (.unlink s')
  | list {s s' : ListState} {stores : Stores} {rows : List VendorIdentity}
      (hstep : s.step w.toStores rows = some (stores, s')) :
      Step deps w (.list s) (.order rows) { w with toStores := stores } (.list s')
  | listFail {s s' : ListState} (hfail : s.fail = some s') :
      Step deps w (.list s) .fail w (.list s')

theorem step_cases {deps : Deps} {w w' : World} {call call' : Call} {label : Label}
    (h : step deps w call label = some (w', call')) : Step deps w call label w' call' := by
  rw [step.eq_def] at h
  split at h
  · obtain ⟨⟨w₁, s'⟩, hstep, heq⟩ := Option.map_eq_some_iff.mp h
    obtain ⟨rfl, rfl⟩ := Prod.mk.inj heq
    exact .process hstep
  · obtain ⟨s', hfail, heq⟩ := Option.map_eq_some_iff.mp h
    obtain ⟨rfl, rfl⟩ := Prod.mk.inj heq
    exact .processFail hfail
  · obtain ⟨⟨stores, s'⟩, hstep, heq⟩ := Option.map_eq_some_iff.mp h
    obtain ⟨rfl, rfl⟩ := Prod.mk.inj heq
    exact .resolve _ hstep
  · obtain ⟨⟨stores, s'⟩, hstep, heq⟩ := Option.map_eq_some_iff.mp h
    obtain ⟨rfl, rfl⟩ := Prod.mk.inj heq
    exact .link _ hstep
  · obtain ⟨s', hfail, heq⟩ := Option.map_eq_some_iff.mp h
    obtain ⟨rfl, rfl⟩ := Prod.mk.inj heq
    exact .linkFail hfail
  · obtain ⟨⟨stores, s'⟩, hstep, heq⟩ := Option.map_eq_some_iff.mp h
    obtain ⟨rfl, rfl⟩ := Prod.mk.inj heq
    exact .unlink _ hstep
  · obtain ⟨s', hfail, heq⟩ := Option.map_eq_some_iff.mp h
    obtain ⟨rfl, rfl⟩ := Prod.mk.inj heq
    exact .unlinkFail hfail
  · obtain ⟨⟨stores, s'⟩, hstep, heq⟩ := Option.map_eq_some_iff.mp h
    obtain ⟨rfl, rfl⟩ := Prod.mk.inj heq
    exact .list hstep
  · obtain ⟨s', hfail, heq⟩ := Option.map_eq_some_iff.mp h
    obtain ⟨rfl, rfl⟩ := Prod.mk.inj heq
    exact .listFail hfail
  · exact absurd h (by simp)

/-- A step that fails has no effect. -/
theorem step_fail_world {deps : Deps} {w w' : World} {call call' : Call}
    (h : step deps w call .fail = some (w', call')) : w' = w := by
  cases step_cases h <;> rfl

def program (deps : Deps) : Program ℕ World Call Label Event where
  step _ w call label := step deps w call label
  env := event

abbrev Config := Lib.Config ℕ World Call

abbrev Action := Lib.Action ℕ Call Label Event

/-- Some call of the configuration, running or finished, is as `P` says. -/
def HasCall (c : Config) (P : Call → Prop) : Prop := ∃ i call, c.threads i = some call ∧ P call

/-! The state of a fresh installation. -/

/-- Nothing is stored and nothing is cached. -/
def freshWorld : World where
  db := Database.empty 1710498600000
  redis := fun _ => none
  metrics := []

def noCalls : Config := ⟨freshWorld, fun _ => none⟩

end Service

/-- A call as it is started. -/
inductive Call.Initial : Call → Prop
  | process (job : ShotJob) : Call.Initial (.process (Ingestion.process job))
  | resolve (pair : Vendor × String) : Call.Initial (.resolve (.get pair))
  | link (pair : Vendor × String) (c actor : String) : Call.Initial (.link (.commit pair c actor))
  | unlink (pair : Vendor × String) (c actor : String) :
      Call.Initial (.unlink (.commit pair c actor))
  | list (c actor : String) : Call.Initial (.list (.get c actor))

end PureplayIngest
