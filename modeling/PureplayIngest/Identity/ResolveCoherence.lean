import PureplayIngest.Identity.PairEffect

/-!
Coherence of the resolve cache under concurrency.

A resolve call that finds nothing cached reads the table and later writes
what it read into the cache. A link or an unlink commits and later deletes
the entry. A reader that read before the commit may write after the deletion,
and then the entry is stale for as long as it lives.

Between the links and unlinks of a pair the cache is coherent provided no
reader was caught like this: whenever the last pending deletion for a pair is
made, the readers about to write have read what the table holds then.
-/

namespace PureplayIngest

open Shared.Domain Shared.Kysely Identity Ingestion Lib

namespace Service

/-- The runs of the service from tables whose constraints hold, with whatever
Redis contains. -/
def system (deps : Deps) : System Config Action :=
  (program deps).system fun w => UniquePairs w.db ∧ NonEmptyUsers w.db

theorem system_exec (deps : Deps) : (system deps).exec = (program deps).exec := rfl

end Service

open Service

/-- Calls start at their beginning, and no link is to the empty string. -/
def StartsCalls : Action → Prop
  | .spawn _ call => call.Initial ∧ ∀ pair actor, call ≠ .link (.commit pair "" actor)
  | _ => True

/-- A link or an unlink of the pair has committed and not yet deleted its cache entries. -/
def Pending (c : Config) (pair : Vendor × String) : Prop :=
  HasCall c fun call => call.mutation pair = some .committed

def Returned (c : Config) (pair : Vendor × String) : Prop :=
  HasCall c fun call => call.mutation pair = some .returned

/-- A link or an unlink of the pair is running. -/
def Mutating (c : Config) (pair : Vendor × String) : Prop :=
  HasCall c fun call => call.mutation pair = some .started ∨ call.mutation pair = some .committed

/-- The readers about to write an entry for the pair have read what the table holds. -/
def ReadersCurrent (c : Config) (pair : Vendor × String) : Prop :=
  ∀ i call r, c.threads i = some call → call.Carries pair r → r = mapping c.shared.db pair

/-- At the last pending deletion for the pair its readers are current. -/
def EvictsAfterReaders (pair : Vendor × String) (c : Config) (a : Action) : Prop :=
  ∀ i label call, a = .step i label → c.threads i = some call →
    call.mutation pair = some .committed →
    (∀ j other, j ≠ i → c.threads j = some other → other.mutation pair ≠ some .committed) →
    ReadersCurrent c pair

/-- Entry and readers of a pair agree with the table. -/
structure Fresh (c : Config) (pair : Vendor × String) : Prop where
  entry : ∀ s, c.shared.cached pair = some (.text s) → s = (mapping c.shared.db pair).getD ""
  readers : ReadersCurrent c pair

/-- What holds in every state reached. -/
structure CacheInv (pair : Vendor × String) (c : Config) : Prop where
  unique : UniquePairs c.shared.db
  nonEmpty : NonEmptyUsers c.shared.db
  links : ∀ i p actor, c.threads i ≠ some (.link (.commit p "" actor))
  fresh : Returned c pair → ¬ Pending c pair → Fresh c pair

variable {c : Config} {pair : Vendor × String}

theorem Fresh.spawn {i : ℕ} {call : Call} (h : Fresh c pair) (hcall : call.Initial) :
    Fresh { c with threads := Function.update c.threads i (some call) } pair := by
  refine ⟨h.entry, fun j other r hj hcarry => ?_⟩
  obtain ⟨_, rfl⟩ | ⟨_, hj⟩ := Program.update_cases hj
  · exact absurd hcarry (hcall.not_carries pair r)
  · exact h.readers j other r hj hcarry

/-- A step that neither commits nor evicts keeps a pair fresh. -/
theorem Fresh.step {i : ℕ} {call call' : Call} {w' : World} (h : Fresh c pair)
    (hi : c.threads i = some call) (heffect : PairEffect pair c.shared w' call call')
    (hcommit : call'.mutation pair ≠ some .committed ∨ call.mutation pair ≠ some .started) :
    Fresh ⟨w', Function.update c.threads i (some call')⟩ pair := by
  -- The readers that did not move keep what they carry; only the mover is looked at.
  have hreaders (hmapping : mapping w'.db pair = mapping c.shared.db pair)
      (hcarry : ∀ r, call'.Carries pair r → r = mapping c.shared.db pair) :
      ReadersCurrent ⟨w', Function.update c.threads i (some call')⟩ pair := by
    intro j other r hj hother
    show r = mapping w'.db pair
    rw [hmapping]
    obtain ⟨_, rfl⟩ | ⟨_, hj⟩ := Program.update_cases hj
    · exact hcarry r hother
    · exact h.readers j other r hj hother
  cases heffect with
  | frame hmapping hcache hcarry _ =>
      refine ⟨fun s hs => ?_, hreaders hmapping hcarry⟩
      rw [hmapping]
      exact h.entry s (hcache ▸ hs)
  | fill r hcarried hmapping hcache hcarry _ =>
      refine ⟨fun s hs => ?_, hreaders hmapping fun r' hr' => absurd hr' (hcarry r')⟩
      rw [hmapping, ← h.readers i call r hi hcarried]
      rw [hcache] at hs
      simpa using hs.symm
  | commit hbefore hafter _ _ => exact absurd hafter (hcommit.resolve_right (not_not.mpr hbefore))
  | evict _ _ hmapping hcache hcarry =>
      refine ⟨fun s hs => ?_, hreaders hmapping fun r' hr' => absurd hr' (hcarry r')⟩
      rw [hcache] at hs
      exact absurd hs (by simp)

/-- A deletion at which the readers are current makes the pair fresh. -/
theorem Fresh.of_evict {i : ℕ} {call call' : Call} {w' : World}
    (heffect : PairEffect pair c.shared w' call call')
    (hbefore : call.mutation pair = some .committed) (hafter : call'.mutation pair = some .returned)
    (hreaders : ReadersCurrent c pair) :
    Fresh ⟨w', Function.update c.threads i (some call')⟩ pair := by
  cases heffect with
  | frame _ _ _ hphase => simp [hbefore, hafter] at hphase
  | fill r _ _ _ _ hphase => simp [hbefore] at hphase
  | commit h _ _ _ => simp [hbefore] at h
  | evict _ _ hmapping hcache hcarry =>
      refine ⟨fun s hs => ?_, fun j other r hj hother => ?_⟩
      · rw [hcache] at hs
        exact absurd hs (by simp)
      · show r = mapping w'.db pair
        rw [hmapping]
        obtain ⟨_, rfl⟩ | ⟨_, hj⟩ := Program.update_cases hj
        · exact absurd hother (hcarry r)
        · exact hreaders j other r hj hother

/-- One step of a call leaves a pair fresh on which no mutation is pending: a
deletion makes it fresh, and any other step finds it so. -/
theorem fresh_step {i : ℕ} {call call' : Call} {w' : World} {label : Label}
    (hguard : EvictsAfterReaders pair c (.step i label)) (hi : c.threads i = some call)
    (heffect : PairEffect pair c.shared w' call call')
    (hpending : ¬ Pending ⟨w', Function.update c.threads i (some call')⟩ pair)
    (hprev : (call'.mutation pair = call.mutation pair ∨
      call.mutation pair = some .started ∧ call'.mutation pair = some .rejected) →
      ¬ Pending c pair → Fresh c pair) :
    Fresh ⟨w', Function.update c.threads i (some call')⟩ pair := by
  have hothers : ∀ j other, j ≠ i → c.threads j = some other →
      other.mutation pair ≠ some .committed := by
    intro j other hji hj hcommitted
    exact hpending ⟨j, other, (Function.update_of_ne hji ..).trans hj, hcommitted⟩
  have hself : call'.mutation pair ≠ some .committed := fun h =>
    hpending ⟨i, call', Function.update_self .., h⟩
  -- Either the entry is deleted here, or there was nothing pending before.
  by_cases hevict : call.mutation pair = some .committed ∧ call'.mutation pair = some .returned
  · exact .of_evict heffect hevict.1 hevict.2
      (hguard i label call rfl hi hevict.1 hothers)
  · have hphase : call'.mutation pair = call.mutation pair ∨
        call.mutation pair = some .started ∧ call'.mutation pair = some .rejected := by
      rcases heffect.phase with h | h | h | h
      · exact .inl h
      · exact .inr h
      · exact absurd h.2 hself
      · exact absurd h hevict
    refine (hprev hphase ?_).step hi heffect (.inl hself)
    rintro ⟨j, other, hj, hcommitted⟩
    by_cases hji : j = i
    · subst j
      obtain rfl := Option.some.inj (hi.symm.trans hj)
      rcases hphase with h | h
      · exact hself (h.trans hcommitted)
      · simp [h.1] at hcommitted
    · exact hothers j other hji hj hcommitted

/-- The environment only takes entries away. -/
theorem Fresh.event {x : Event} {w' : World} (h : Fresh c pair)
    (hevent : Service.event c.shared x = some w') : Fresh { c with shared := w' } pair := by
  have hmapping := mapping_congr (event_identities hevent) pair
  refine ⟨fun s hs => ?_, fun i call r hi hcarry => ?_⟩
  · show s = (mapping w'.db pair).getD ""
    rw [hmapping]
    exact h.entry s (event_cached hevent hs)
  · show r = mapping w'.db pair
    rw [hmapping]
    exact h.readers i call r hi hcarry

/-- No step sets a link back to its start. -/
theorem step_not_commit {deps : Deps} {w w' : World} {call call' : Call} {label : Label}
    (h : Service.step deps w call label = some (w', call')) (p : Vendor × String)
    (c actor : String) : call' ≠ .link (.commit p c actor) := by
  rintro rfl
  cases Service.step_cases h with
  | @link s _ _ _ hstep => cases s <;> simp [LinkState.step] at hstep
  | @linkFail s _ hfail => cases s <;> simp [LinkState.fail] at hfail

variable {deps : Deps} {c' : Config} {a : Action}

theorem CacheInv.step (hinv : CacheInv pair c) (hstart : StartsCalls a)
    (hguard : EvictsAfterReaders pair c a) (hexec : (program deps).exec c a = some c') :
    CacheInv pair c' := by
  obtain ⟨i, call, rfl, hnone, rfl⟩ | ⟨i, label, call, w', call', rfl, hi, hstep, rfl⟩ |
    ⟨x, w', rfl, hevent, rfl⟩ := Program.exec_cases hexec
  · obtain ⟨hinitial, hlink⟩ := hstart
    refine ⟨hinv.unique, hinv.nonEmpty, fun j p actor hj => ?_, fun hret hpend => ?_⟩
    · obtain ⟨_, rfl⟩ | ⟨_, hj⟩ := Program.update_cases hj
      · exact hlink p actor rfl
      · exact hinv.links j p actor hj
    · refine (hinv.fresh ?_ ?_).spawn hinitial
      · obtain ⟨j, other, hj, hother⟩ := hret
        obtain ⟨_, rfl⟩ | ⟨_, hj⟩ := Program.update_cases hj
        · rcases hinitial.mutation pair with h | h <;> simp [h] at hother
        · exact ⟨j, other, hj, hother⟩
      · rintro ⟨j, other, hj, hother⟩
        refine hpend ⟨j, other, (Function.update_of_ne ?_ ..).trans hj, hother⟩
        rintro rfl
        exact absurd (hnone.symm.trans hj) (by simp)
  · have htable := step_table hinv.unique hstep
    refine ⟨htable.unique hinv.unique, htable.nonEmpty hinv.nonEmpty fun p actor h => ?_,
      fun j p actor hj => ?_, fun hret hpend => ?_⟩
    · exact hinv.links i p actor (h ▸ hi)
    · obtain ⟨_, rfl⟩ | ⟨_, hj⟩ := Program.update_cases hj
      · exact step_not_commit hstep p "" actor rfl
      · exact hinv.links j p actor hj
    · refine fresh_step hguard hi (step_effect hinv.unique hstep) hpend fun hphase => ?_
      -- Whichever mutation has returned now had returned before the step.
      refine hinv.fresh ?_
      obtain ⟨j, other, hj, hother⟩ := hret
      obtain ⟨_, rfl⟩ | ⟨_, hj⟩ := Program.update_cases hj
      · refine ⟨i, call, hi, ?_⟩
        rcases hphase with h | h
        · rw [← h, hother]
        · simp [h.2] at hother
      · exact ⟨j, other, hj, hother⟩
  · have hids := event_identities hevent
    refine ⟨by rw [UniquePairs, hids]; exact hinv.unique, fun p => ?_, hinv.links,
      fun hret hpend => (hinv.fresh hret hpend).event hevent⟩
    rw [mapping_congr hids]
    exact hinv.nonEmpty p

/-- The condition under which the cache is coherent for a pair, as a guard on the actions. -/
def CoherenceGuard (pair : Vendor × String) (c : Config) (a : Action) : Prop :=
  StartsCalls a ∧ EvictsAfterReaders pair c a

theorem cacheInv_of_reach (h : (system deps).Reach (CoherenceGuard pair) c) : CacheInv pair c := by
  refine h.invariant (fun c₀ h₀ => ?_) fun c a c' hinv hguard hexec =>
    hinv.step hguard.1 hguard.2 hexec
  obtain ⟨⟨hunique, hnonEmpty⟩, hidle⟩ := h₀
  refine ⟨hunique, hnonEmpty, fun i p actor hi => ?_, fun hret => ?_⟩
  · exact absurd ((hidle i).symm.trans hi) (by simp)
  · obtain ⟨i, call, hi, _⟩ := hret
    exact absurd ((hidle i).symm.trans hi) (by simp)

/-! ### Between two mutations of a pair -/

/-- A link or an unlink of the pair is started. -/
def StartsMutation (pair : Vendor × String) (a : Action) : Prop :=
  ∃ i call, a = .spawn i call ∧ call.mutation pair = some .started

/-- A resolve call returns what was cached, or what it has read itself. -/
theorem step_returned {w w' : World} {call : Call} {label : Label} {r : Option String}
    (h : Service.step deps w call label = some (w', .resolve (.returned pair r))) :
    (∃ s, w.cached pair = some (.text s) ∧ r = if s = "" then none else some s) ∨
      call.Carries pair r := by
  cases Service.step_cases h with
  | @resolve s _ _ _ hstep =>
      cases s with
      | get p =>
          simp only [ResolveState.step] at hstep
          split at hstep
          · rename_i cached hcached
            obtain ⟨rfl, rfl⟩ := ResolveState.returned.inj (Prod.mk.inj (Option.some.inj hstep)).2
            exact .inl ⟨cached, hcached, rfl⟩
          · exact absurd hstep (by simp)
          · exact absurd (Prod.mk.inj (Option.some.inj hstep)).2 (by simp)
      | select p => exact absurd (Prod.mk.inj (Option.some.inj hstep)).2 (by simp)
      | set p r' =>
          obtain ⟨rfl, rfl⟩ := ResolveState.returned.inj (Prod.mk.inj (Option.some.inj hstep)).2
          exact .inr rfl
      | returned p r' => exact absurd hstep (by simp [ResolveState.step])

/-- What a fresh pair makes a resolve call return. -/
theorem Fresh.returned (hfresh : Fresh c pair) (hnonEmpty : NonEmptyUsers c.shared.db) {i : ℕ}
    {call : Call} {label : Label} {w' : World} {r : Option String} (hi : c.threads i = some call)
    (h : Service.step deps c.shared call label = some (w', .resolve (.returned pair r))) :
    r = mapping c.shared.db pair := by
  rcases step_returned h with ⟨s, hcached, rfl⟩ | hcarry
  · rw [hfresh.entry s hcached]
    cases hm : mapping c.shared.db pair with
    | none => rfl
    | some user =>
        have hne : user ≠ "" := fun h => hnonEmpty pair (h ▸ hm)
        simp [hne]
  · exact hfresh.readers i call r hi hcarry

/-- While no mutation of the pair is running: it is fresh, its mapping stands
still, and the call of process `j` can only return that mapping. -/
structure Quiet (pair : Vendor × String) (m : Option String) (j : ℕ) (c : Config) : Prop where
  inv : CacheInv pair c
  still : ¬ Mutating c pair
  fresh : Fresh c pair
  mapping_eq : mapping c.shared.db pair = m
  result : ∀ r, c.threads j = some (.resolve (.returned pair r)) → r = m

theorem Quiet.step {m : Option String} {j : ℕ} (hquiet : Quiet pair m j c)
    (hguard : CoherenceGuard pair c a) (hstill : ¬ StartsMutation pair a)
    (hexec : (program deps).exec c a = some c') : Quiet pair m j c' := by
  have hinv' := hquiet.inv.step hguard.1 hguard.2 hexec
  obtain ⟨i, call, rfl, _, rfl⟩ | ⟨i, label, call, w', call', rfl, hi, hstep, rfl⟩ |
    ⟨x, w', rfl, hevent, rfl⟩ := Program.exec_cases hexec
  · have hinitial := hguard.1.1
    refine ⟨hinv', ?_, hquiet.fresh.spawn hinitial, hquiet.mapping_eq, fun r hr => ?_⟩
    · rintro ⟨k, other, hk, hphase⟩
      obtain ⟨_, rfl⟩ | ⟨_, hk⟩ := Program.update_cases hk
      · rcases hphase with h | h
        · exact hstill ⟨i, call, rfl, h⟩
        · rcases hinitial.mutation pair with h' | h' <;> simp [h'] at h
      · exact hquiet.still ⟨k, other, hk, hphase⟩
    · obtain ⟨_, rfl⟩ | ⟨_, hj⟩ := Program.update_cases hr
      · cases hinitial
      · exact hquiet.result r hj
  · have heffect : PairEffect pair c.shared w' call call' := step_effect hquiet.inv.unique hstep
    -- The call that moves is no mutation of the pair under way.
    have hphase : call.mutation pair ≠ some .started ∧ call.mutation pair ≠ some .committed :=
      ⟨fun h => hquiet.still ⟨i, call, hi, .inl h⟩, fun h => hquiet.still ⟨i, call, hi, .inr h⟩⟩
    have hsame : call'.mutation pair = call.mutation pair := by
      rcases heffect.phase with h | h | h | h
      · exact h
      · exact absurd h.1 hphase.1
      · exact absurd h.1 hphase.1
      · exact absurd h.1 hphase.2
    have hmapping : mapping w'.db pair = mapping c.shared.db pair := by
      cases heffect with
      | frame h _ _ _ => exact h
      | fill _ _ h _ _ _ => exact h
      | commit h _ _ _ => exact absurd h hphase.1
      | evict h _ _ _ _ => exact absurd h hphase.2
    refine ⟨hinv', ?_, hquiet.fresh.step hi heffect (.inr hphase.1),
      hmapping.trans hquiet.mapping_eq, fun r hr => ?_⟩
    · rintro ⟨k, other, hk, hother⟩
      obtain ⟨_, rfl⟩ | ⟨_, hk⟩ := Program.update_cases hk
      · rw [hsame] at hother
        exact hother.elim hphase.1 hphase.2
      · exact hquiet.still ⟨k, other, hk, hother⟩
    · obtain ⟨_, rfl⟩ | ⟨_, hj⟩ := Program.update_cases hr
      · exact (hquiet.fresh.returned hquiet.inv.nonEmpty hi hstep).trans hquiet.mapping_eq
      · exact hquiet.result r hj
  · exact ⟨hinv', hquiet.still, hquiet.fresh.event hevent,
      (mapping_congr (event_identities hevent) pair).trans hquiet.mapping_eq, hquiet.result⟩

/-- A resolve call that starts after a link or an unlink of its pair has
returned, with none running, and ends before the next one starts, returns what
the table maps the pair to. -/
theorem resolve_coherent {c₀ c₁ : Config} {as : List Action} {j : ℕ} {r : Option String}
    (hreach : (system deps).Reach (CoherenceGuard pair) c₀) (hreturned : Returned c₀ pair)
    (hstill : ¬ Mutating c₀ pair)
    (hrun : (system deps).Run (fun c a => CoherenceGuard pair c a ∧ ¬ StartsMutation pair a) c₀
      (.spawn j (.resolve (.get pair)) :: as) c₁)
    (hresult : c₁.threads j = some (.resolve (.returned pair r))) :
    r = mapping c₁.shared.db pair := by
  have hinv := cacheInv_of_reach hreach
  have hfresh := hinv.fresh hreturned
    fun ⟨i, call, hi, h⟩ => hstill ⟨i, call, hi, .inr h⟩
  cases hrun with
  | cons hguard hexec tail =>
      rw [system_exec] at hexec
      have hnone : c₀.threads j = none := by
        obtain ⟨_, _, h, hnone, _⟩ | ⟨_, _, _, _, _, h, _⟩ | ⟨_, _, h, _⟩ :=
          Program.exec_cases hexec
        · obtain ⟨rfl, rfl⟩ := Lib.Action.spawn.inj h
          exact hnone
        · exact absurd h (by simp)
        · exact absurd h (by simp)
      have hquiet : Quiet pair (mapping c₀.shared.db pair) j c₀ :=
        ⟨hinv, hstill, hfresh, rfl, fun r hr => absurd (hnone.symm.trans hr) (by simp)⟩
      have hend := tail.invariant (I := Quiet pair (mapping c₀.shared.db pair) j)
        (fun c a c' h hg he => h.step hg.1 hg.2 he) (hquiet.step hguard.1 hguard.2 hexec)
      rw [hend.result r hresult, hend.mapping_eq]

/-! ### A run where it holds, and one where it does not -/

def samplePair : Vendor × String := (.trackpro, "demo-player-1")

def sampleUser : String := "01HS0N8R9MCANONICALUSER001"

theorem noCalls_init (deps : Deps) : (system deps).init noCalls :=
  ⟨⟨List.nodup_nil, fun pair => by simp [mapping, noCalls, freshWorld, Database.empty]⟩,
    fun _ => rfl⟩

/-- A link up to its return. -/
def linkActions (i : ℕ) : List Action :=
  [.spawn i (.link (.commit samplePair sampleUser "internal-api")), .step i (.ok 0),
    .step i (.ok 0)]

def resolveActions (j : ℕ) : List Action :=
  [.spawn j (.resolve (.get samplePair)), .step j (.ok 0), .step j (.ok 0), .step j (.ok 0)]

/-- Without the condition a reader that is slower than a link leaves its `null`
in the cache: reader 0 selects, link 1 commits and deletes, reader 0 writes,
and resolve call 2 returns what it wrote. -/
theorem resolve_not_coherent :
    ¬ ∃ deps : Deps, ∀ (c₀ c₁ : Config) (as : List Action) (pair : Vendor × String) (j : ℕ)
        (r : Option String),
      (system deps).Reach (fun _ a => StartsCalls a) c₀ → Returned c₀ pair → ¬ Mutating c₀ pair →
      (system deps).Run (fun _ a => StartsCalls a ∧ ¬ StartsMutation pair a) c₀
        (.spawn j (.resolve (.get pair)) :: as) c₁ →
      c₁.threads j = some (.resolve (.returned pair r)) → r = mapping c₁.shared.db pair := by
  rintro ⟨deps, h⟩
  have hbefore : ∀ a ∈ (resolveActions 0).take 3 ++ linkActions 1, StartsCalls a := by
    simp only [resolveActions, linkActions, List.take, List.cons_append, List.nil_append,
      List.forall_mem_cons, StartsCalls]
    refine ⟨⟨.resolve _, by simp⟩, trivial, trivial, ⟨.link _ _ _, ?_⟩, trivial, trivial, by simp⟩
    intro p actor heq
    obtain ⟨_, hc, _⟩ := LinkState.commit.inj (Call.link.inj heq)
    exact absurd hc (by decide)
  have hwindow : ∀ a ∈ ([.spawn 2 (.resolve (.get samplePair)), .step 0 (.ok 0), .step 2 (.ok 0)] :
      List Action), StartsCalls a ∧ ¬ StartsMutation samplePair a := by
    simp only [List.forall_mem_cons, StartsCalls, StartsMutation]
    refine ⟨⟨⟨.resolve _, by simp⟩, ?_⟩, ⟨trivial, by simp⟩, ⟨trivial, by simp⟩, by simp⟩
    rintro ⟨i, call, heq, hphase⟩
    obtain ⟨_, rfl⟩ := Lib.Action.spawn.inj heq
    simp [Call.mutation] at hphase
  let c₀ := ((system deps).execAll noCalls
    ((resolveActions 0).take 3 ++ linkActions 1)).getD noCalls
  let c₁ := ((system deps).execAll c₀
    [.spawn 2 (.resolve (.get samplePair)), .step 0 (.ok 0), .step 2 (.ok 0)]).getD noCalls
  -- The first resolve has read the table before the link, and fills the cache after it.
  have hreach : (system deps).Reach (fun _ a => StartsCalls a) c₀ :=
    ⟨noCalls, _, noCalls_init deps, System.run_of_execAll (fun a ha _ => hbefore a ha) rfl⟩
  have hstill : ¬ Mutating c₀ samplePair := by
    have hcalls : ∀ i call, c₀.threads i = some call → ¬ (call.mutation samplePair = some .started ∨
        call.mutation samplePair = some .committed) := by
      refine Program.forall_of_lt (n := 2) (fun _ => rfl) ?_
      rintro (_ | _ | i) hlt
      · exact ⟨_, rfl, by simp [Call.mutation]⟩
      · exact ⟨_, rfl, by simp [Call.mutation]⟩
      · omega
    rintro ⟨i, call, hi, hphase⟩
    exact hcalls i call hi hphase
  have hresult := h c₀ c₁ [.step 0 (.ok 0), .step 2 (.ok 0)] samplePair 2 none hreach
    ⟨1, _, rfl, rfl⟩ hstill (System.run_of_execAll (fun a ha _ => hwindow a ha) rfl) rfl
  have hmapping : mapping c₁.shared.db samplePair = some sampleUser := rfl
  exact absurd (hresult.trans hmapping) (by simp)

theorem EvictsAfterReaders.of_phase {i : ℕ} {label : Label} {call : Call}
    (hi : c.threads i = some call) (h : call.mutation pair ≠ some .committed) :
    EvictsAfterReaders pair c (.step i label) := by
  intro j label' other heq hj hcommitted
  obtain ⟨rfl, _⟩ := Lib.Action.step.inj heq
  obtain rfl := Option.some.inj (hi.symm.trans hj)
  exact absurd hcommitted h

theorem EvictsAfterReaders.spawn {i : ℕ} {call : Call} :
    EvictsAfterReaders pair c (.spawn i call) := by
  intro j label other heq
  exact absurd heq (by simp)

/-- Identity calls use neither of the two. -/
def sampleDeps : Deps := ⟨fun text => text, fun _ => none⟩

def afterLink : Config := ((system sampleDeps).execAll noCalls (linkActions 0)).getD noCalls

def afterResolve : Config :=
  ((system sampleDeps).execAll afterLink (resolveActions 1)).getD noCalls

theorem startsCalls_link : StartsCalls (.spawn 0 (.link (.commit samplePair sampleUser
    "internal-api"))) := by
  refine ⟨.link _ _ _, fun p actor heq => ?_⟩
  obtain ⟨_, hc, _⟩ := LinkState.commit.inj (Call.link.inj heq)
  exact absurd hc (by decide)

theorem afterLink_reach : (system sampleDeps).Reach (CoherenceGuard samplePair) afterLink := by
  refine ⟨noCalls, linkActions 0, noCalls_init _, ?_⟩
  refine .cons ⟨startsCalls_link, .spawn⟩ rfl (.cons ⟨trivial, .of_phase rfl ?_⟩ rfl
    (.cons ⟨trivial, ?_⟩ rfl (.nil _)))
  · simp [Call.mutation]
  · -- The link is the only call, so no reader is about to write.
    intro i label call _ _ _ _
    suffices hreaders : ∀ j other, _ → ∀ r, ¬ Call.Carries samplePair r other from
      fun j other r hj hcarry => absurd hcarry (hreaders j other hj r)
    refine Program.forall_of_lt (n := 1) (fun _ => rfl) ?_
    rintro (_ | j) hlt
    · exact ⟨_, rfl, by simp [Call.Carries, Call.resolving]⟩
    · omega

/-- The look-up after a link, with no other call running. -/
theorem resolve_coherent_afterLink :
    some sampleUser = mapping afterResolve.shared.db samplePair := by
  have hstill : ¬ Mutating afterLink samplePair := by
    have hcalls : ∀ i call, afterLink.threads i = some call →
        ¬ (call.mutation samplePair = some .started ∨
          call.mutation samplePair = some .committed) := by
      refine Program.forall_of_lt (n := 1) (fun _ => rfl) ?_
      rintro (_ | i) hlt
      · exact ⟨_, rfl, by simp [Call.mutation]⟩
      · omega
    rintro ⟨i, call, hi, hphase⟩
    exact hcalls i call hi hphase
  have hstarts : ¬ StartsMutation samplePair
      (.spawn 1 (.resolve (.get samplePair)) : Action) := by
    rintro ⟨i, call, heq, hphase⟩
    obtain ⟨_, rfl⟩ := Lib.Action.spawn.inj heq
    simp [Call.mutation] at hphase
  have hstep (label : Label) : ¬ StartsMutation samplePair (.step 1 label) := by
    simp [StartsMutation]
  have hresult :
      afterResolve.threads 1 = some (.resolve (.returned samplePair (some sampleUser))) :=
    rfl
  have hrun : (system sampleDeps).Run
      (fun c a => CoherenceGuard samplePair c a ∧ ¬ StartsMutation samplePair a)
      afterLink (resolveActions 1) afterResolve := by
    refine .cons ⟨⟨⟨.resolve _, by simp⟩, .spawn⟩, hstarts⟩ rfl
      (.cons ⟨⟨trivial, .of_phase rfl ?_⟩, hstep _⟩ rfl
        (.cons ⟨⟨trivial, .of_phase rfl ?_⟩, hstep _⟩ rfl
          (.cons ⟨⟨trivial, .of_phase rfl ?_⟩, hstep _⟩ rfl (.nil _))))
    all_goals
      simp [Call.mutation]
  exact resolve_coherent afterLink_reach ⟨0, _, rfl, rfl⟩ hstill hrun hresult

end PureplayIngest
