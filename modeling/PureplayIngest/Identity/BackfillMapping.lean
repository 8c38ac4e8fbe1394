import PureplayIngest.Identity.Backfill

/-!
Whether the user that a backfill sets on a shot is the one its vendor user is
linked to.

The backfill has the user of its link, and runs some time after the commit. A
link to another user that commits in between, or an unlink, is not noticed by
it. When no transaction overtakes a backfill in this way, the mapping is still
that of the link when its backfill runs.
-/

namespace PureplayIngest

open Shared.Domain Shared.Kysely Identity Ingestion Lib Service Webhooks

/-- A link of the pair to the user has committed, and its backfill has not run. -/
def Call.AwaitsBackfill (pair : Vendor × String) (user : String) : Call → Prop
  | .link (.del p c _) => p = pair ∧ c = user
  | .link (.backfill p c _) => p = pair ∧ c = user
  | _ => False

/-- The call is about to commit a link of the pair to another user, or an
unlink of it from the user. -/
def Call.Overtakes (pair : Vendor × String) (user : String) : Call → Prop
  | .link (.commit p c _) => p = pair ∧ c ≠ user
  | .unlink (.commit p c _) => p = pair ∧ c = user
  | _ => False

/-- The condition under which no backfill misattributes: a transaction that
takes the pair away from a user does not commit while a link to that user
awaits its backfill. -/
def NoneOvertaken (pair : Vendor × String) (c : Config) (a : Action) : Prop :=
  ∀ i label call, a = .step i label → label ≠ .fail → c.threads i = some call →
    ∀ user, call.Overtakes pair user →
      ∀ j other, c.threads j = some other → ¬ other.AwaitsBackfill pair user

/-- Calls are started at their beginning. -/
def StartsInitial : Action → Prop
  | .spawn _ call => call.Initial
  | _ => True

/-- The runs from any table of identities. -/
def identitySystem (deps : Deps) : System Config Action :=
  (program deps).system fun w => UniquePairs w.db

/-- A backfill sets the user on a shot of the pair. -/
def Attributes (deps : Deps) (pair : Vendor × String) (user : String) (c c' : Config) : Prop :=
  ∃ i label row shot, c.threads i = some (.link (.backfill pair user row)) ∧
    (program deps).exec c (.step i label) = some c' ∧
    shot ∈ c.shared.db.shots ∧ shotPair shot.toShotWithoutPayload = pair ∧
    shot.canonical_user_id = none ∧
    { shot with canonical_user_id := some user } ∈ c'.shared.db.shots

/-! ### What a step does to a mapping that is relied on -/

section

variable {deps : Deps} {w w' : World} {call call' : Call} {label : Label}
  {pair : Vendor × String} {user : String}

/-- A link that awaits its backfill did so before, or has just committed. -/
theorem step_awaitsBackfill (h : Service.step deps w call label = some (w', call'))
    (hawaits : call'.AwaitsBackfill pair user) :
    call.AwaitsBackfill pair user ∨ mapping w'.db pair = some user := by
  cases Service.step_cases h with
  | @link s s' stores k hstep =>
      cases s with
      | commit p c actor =>
          obtain ⟨⟨db, row⟩, hlink, heq⟩ := Option.map_eq_some_iff.mp hstep
          obtain ⟨rfl, rfl⟩ := Prod.mk.inj heq
          obtain ⟨rfl, rfl⟩ := hawaits
          exact .inr (linkTransaction_linked hlink).mapping_self
      | del p c row =>
          obtain ⟨rfl, rfl⟩ := Prod.mk.inj (Option.some.inj hstep)
          exact .inl hawaits
      | backfill p c row =>
          obtain ⟨rfl, rfl⟩ := Prod.mk.inj (Option.some.inj hstep)
          exact hawaits.elim
      | _ => exact absurd hstep (by simp [LinkState.step])
  | @linkFail s s' hfail => cases s <;> cases hfail <;> exact hawaits.elim
  | _ => exact hawaits.elim

/-- A step that does not overtake keeps the mapping to a user. -/
theorem step_mapping_kept (hunique : UniquePairs w.db)
    (h : Service.step deps w call label = some (w', call'))
    (hover : label ≠ .fail → ¬ call.Overtakes pair user)
    (hmapping : mapping w.db pair = some user) : mapping w'.db pair = some user := by
  by_cases hlabel : label = .fail
  · subst hlabel
    exact step_fail_world h ▸ hmapping
  have hover := hover hlabel
  cases step_table hunique h with
  | same hsame => exact (mapping_congr hsame pair).trans hmapping
  | linked p c actor row hcall _ hlinked _ =>
      subst hcall
      by_cases hp : p = pair
      · subst hp
        obtain rfl : c = user := by
          by_contra hne
          exact hover ⟨rfl, hne⟩
        exact hlinked.mapping_self
      · exact (hlinked.mapping_other pair (Ne.symm hp)).trans hmapping
  | unlinked p c actor hcall _ hunlinked _ =>
      subst hcall
      by_cases hp : p = pair
      · subst hp
        obtain rfl := Option.some.inj (hunlinked.mapping_before.symm.trans hmapping)
        exact absurd ⟨rfl, rfl⟩ hover
      · exact (hunlinked.mapping_other pair (Ne.symm hp)).trans hmapping

theorem unlinkTransaction_ne_none {db : Database} {actor : String}
    (h : mapping db pair = some user) : unlinkTransaction db pair user actor ≠ none := by
  obtain ⟨row, hfind, huser⟩ := Option.map_eq_some_iff.mp h
  have hrow : decide (pairOf row = pair ∧ row.canonical_user_id = user) = true :=
    decide_eq_true ⟨by simpa using List.find?_some hfind, huser⟩
  rw [unlinkTransaction, if_pos (List.any_eq_true.mpr ⟨row, List.mem_of_find?_eq_some hfind, hrow⟩)]
  exact Option.some_ne_none _

/-- A step that overtakes takes the pair away from the user. -/
theorem step_mapping_lost (hunique : UniquePairs w.db)
    (h : Service.step deps w call label = some (w', call')) (hlabel : label ≠ .fail)
    (hover : call.Overtakes pair user) : mapping w'.db pair ≠ some user := by
  cases Service.step_cases h with
  | @link s s' stores k hstep =>
      cases s with
      | commit p c actor =>
          obtain ⟨⟨db, row⟩, hlink, heq⟩ := Option.map_eq_some_iff.mp hstep
          obtain ⟨rfl, rfl⟩ := Prod.mk.inj heq
          obtain ⟨rfl, hne⟩ := hover
          rw [(linkTransaction_linked hlink).mapping_self]
          exact fun heq => hne (Option.some.inj heq)
      | _ => exact hover.elim
  | @unlink s s' stores k hstep =>
      cases s with
      | commit p c actor =>
          obtain ⟨rfl, rfl⟩ := hover
          simp only [UnlinkState.step] at hstep
          split at hstep
          · rename_i db hunlink
            obtain ⟨rfl, rfl⟩ := Prod.mk.inj (Option.some.inj hstep)
            rw [(unlinkTransaction_unlinked hunique hunlink).mapping_self]
            exact Option.some_ne_none _ ∘ Eq.symm
          · rename_i hnone
            obtain ⟨rfl, rfl⟩ := Prod.mk.inj (Option.some.inj hstep)
            exact fun hmapping => unlinkTransaction_ne_none hmapping hnone
      | _ => exact hover.elim
  | linkFail _ => exact absurd rfl hlabel
  | unlinkFail _ => exact absurd rfl hlabel
  | _ => exact hover.elim

end

/-! ### Runs -/

section

variable {deps : Deps} {c c' : Config} {a : Action} {pair : Vendor × String} {user : String}

/-- What a link that awaits its backfill relies on. -/
def ReliesOn (pair : Vendor × String) (w : World) (call : Call) : Prop :=
  ∀ user, call.AwaitsBackfill pair user → mapping w.db pair = some user

abbrev RelianceInv (pair : Vendor × String) (c : Config) : Prop :=
  Program.Inv (fun w : World => UniquePairs w.db) (fun _ : ℕ => ReliesOn pair) c

theorem Call.Initial.not_awaitsBackfill {call : Call} (h : call.Initial) (pair : Vendor × String)
    (user : String) : ¬ call.AwaitsBackfill pair user := by
  cases h with
  | process job => exact id
  | _ => exact id

theorem RelianceInv.step (hinv : RelianceInv pair c) (hstart : StartsInitial a)
    (hnone : NoneOvertaken pair c a) (hexec : (program deps).exec c a = some c') :
    RelianceInv pair c' := by
  refine Program.Inv.step hinv hexec ?_ ?_ ?_
  · rintro i call rfl user hawaits
    exact absurd hawaits (Call.Initial.not_awaitsBackfill hstart pair user)
  · rintro i label call w' call' rfl hi hstep
    have hunique := hinv.shared
    have hkept {j : ℕ} {other : Call} (hj : c.threads j = some other) {user : String}
        (hawaits : other.AwaitsBackfill pair user) : mapping w'.db pair = some user :=
      step_mapping_kept hunique hstep
        (fun hlabel hover => hnone i label call rfl hlabel hi user hover j other hj hawaits)
        (hinv.threads j other hj user hawaits)
    refine ⟨(step_table hunique hstep).unique hunique, fun user hawaits => ?_,
      fun j other _ hj user hawaits => hkept hj hawaits⟩
    obtain hbefore | hmapping := step_awaitsBackfill hstep hawaits
    · exact hkept hi hbefore
    · exact hmapping
  · rintro x w' rfl hevent
    have hsame := event_identities hevent
    refine ⟨?_, fun j other hj user hawaits => ?_⟩
    · rw [UniquePairs, hsame]
      exact hinv.shared
    · exact (mapping_congr hsame pair).trans (hinv.threads j other hj user hawaits)

theorem relianceInv_of_reach (h : (identitySystem deps).Reach
    (fun c a => StartsInitial a ∧ NoneOvertaken pair c a) c) : RelianceInv pair c := by
  refine h.invariant (fun c₀ h₀ => ⟨h₀.1, fun i call hi => ?_⟩) fun d a d' hinv hguard hexec =>
    hinv.step hguard.1 hguard.2 hexec
  exact absurd ((h₀.2 i).symm.trans hi) (by simp)

/-- A backfill that finds a shot without a user sets it. -/
theorem attributes_of_call {i : ℕ} {row : VendorIdentity} {shot : NormalisedShot}
    (hi : c.threads i = some (.link (.backfill pair user row))) (hshot : shot ∈ c.shared.db.shots)
    (hpair : shotPair shot.toShotWithoutPayload = pair) (hnull : shot.canonical_user_id = none) :
    ∃ c', Attributes deps pair user c c' := by
  obtain ⟨c', hexec⟩ : ∃ c', (program deps).exec c (.step i (.ok 0)) = some c' := by
    rw [Program.exec, hi]
    exact ⟨_, rfl⟩
  refine ⟨c', i, .ok 0, row, shot, hi, hexec, hshot, hpair, hnull, ?_⟩
  rw [Program.exec, hi] at hexec
  obtain rfl := Option.some.inj hexec
  obtain rfl := hpair
  exact List.mem_map.mpr ⟨shot, hshot, if_pos ⟨rfl, rfl, hnull⟩⟩

/-- A transaction is not a link that has committed. -/
theorem Call.Overtakes.not_awaits {call : Call} (h : call.Overtakes pair user)
    (hawaits : call.AwaitsBackfill pair user) : False := by
  cases call with
  | link s =>
      cases s with
      | commit p c actor => exact hawaits
      | _ => exact h
  | _ => exact hawaits

/-- While no backfill is overtaken, what a backfill sets is what the pair is
mapped to at that moment. A step that overtakes one leaves a link whose
backfill is yet to set a user that the pair is not mapped to. -/
theorem backfill_sets_mapping (h : (identitySystem deps).Reach
    (fun c a => StartsInitial a ∧ NoneOvertaken pair c a) c) :
    (∀ user c', Attributes deps pair user c c' → mapping c.shared.db pair = some user) ∧
      ∀ a c', (program deps).exec c a = some c' → ¬ NoneOvertaken pair c a →
        ∃ j other user, c'.threads j = some other ∧ other.AwaitsBackfill pair user ∧
          mapping c'.shared.db pair ≠ some user := by
  have hinv := relianceInv_of_reach h
  constructor
  · rintro user c' ⟨i, label, row, shot, hi, _⟩
    exact hinv.threads i _ hi user ⟨rfl, rfl⟩
  · intro a c' hexec hovertaken
    simp only [NoneOvertaken, not_forall, not_not] at hovertaken
    obtain ⟨i, label, call, rfl, hlabel, hi, user, hover, j, other, hj, hawaits⟩ := hovertaken
    obtain ⟨_, _, hspawn, _, _⟩ | ⟨k, e, p, w', q, hact, hk, hstep, rfl⟩ | ⟨_, _, henv, _, _⟩ :=
      Program.exec_cases hexec
    · exact absurd hspawn (by simp)
    · obtain ⟨rfl, rfl⟩ := Action.step.inj hact
      obtain rfl := Option.some.inj (hi.symm.trans hk)
      have hne : j ≠ i := by
        rintro rfl
        obtain rfl := Option.some.inj (hi.symm.trans hj)
        exact hover.not_awaits hawaits
      refine ⟨j, other, user, (Function.update_of_ne hne ..).trans hj, hawaits, ?_⟩
      exact step_mapping_lost hinv.shared hstep hlabel hover
    · exact absurd henv (by simp)

end

/-! ### A drive whose player is linked, once and twice -/

def storeActions : List Action :=
  [.spawn 0 (.process (process (driveJob firstId firstDrive))),
    .step 0 (.ok 0), .step 0 (.ok 0), .step 0 (.ok 0), .step 0 (.ok 0), .step 0 (.ok 0)]

/-- The drive is stored, its player is not linked, and no call is under way. -/
def driveStored : Config :=
  ⟨(((identitySystem driveDeps).execAll noCalls storeActions).getD noCalls).shared, fun _ => none⟩

/-- The link has come as far as its backfill. -/
def linkPlayer : List Action :=
  [.spawn 0 (.link (.commit playerPair "golfer-1" "internal-api")),
    .step 0 (.ok 0), .step 0 (.ok 0)]

/-- While its backfill is due the player is linked to the same user once more,
and an unlink from another user does not find it. -/
def besideBackfill : List Action :=
  [.spawn 1 (.link (.commit playerPair "golfer-1" "internal-api")), .step 1 (.ok 0),
    .spawn 2 (.unlink (.commit playerPair "golfer-2" "internal-api")), .step 2 (.ok 0)]

def linkedBeside : Config :=
  ((identitySystem driveDeps).execAll driveStored (linkPlayer ++ besideBackfill)).getD driveStored

/-- Or the player is linked to another user. -/
def overtakeLink : List Action :=
  [.spawn 1 (.link (.commit playerPair "golfer-2" "internal-api")), .step 1 (.ok 0)]

def overtaken : Config :=
  ((identitySystem driveDeps).execAll driveStored (linkPlayer ++ overtakeLink)).getD driveStored

theorem uniquePairs_driveStored : UniquePairs driveStored.shared.db := by
  have hnone : driveStored.shared.db.user_identities = [] := by decide +kernel
  rw [UniquePairs, hnone]
  exact List.nodup_nil

/-- The row of the link to the first user. -/
def golferRow : VendorIdentity := { playerRow with canonical_user_id := "golfer-1" }

theorem attributes_golfer {c : Config}
    (hcall : (c.threads 0).bind Call.linking = some (.backfill playerPair "golfer-1" golferRow))
    (hshots : c.shared.db.shots.map (fun row =>
      (shotPair row.toShotWithoutPayload, row.canonical_user_id)) = [(playerPair, none)]) :
    ∃ c', Attributes driveDeps playerPair "golfer-1" c c' := by
  obtain ⟨call, hi, hlinking⟩ := Option.bind_eq_some_iff.mp hcall
  obtain ⟨shot, hshot, heq⟩ := List.mem_map.mp (hshots ▸ List.mem_singleton_self (playerPair, none))
  obtain ⟨hpair, hnull⟩ := Prod.mk.inj heq
  cases call with
  | link s =>
      obtain rfl := Option.some.inj hlinking
      exact attributes_of_call hi hshot hpair hnull
  | _ => exact absurd hlinking (by simp [Call.linking])

/-- A link to another user that commits in between is not noticed. -/
theorem misattributes :
    ¬ ∀ (deps : Deps) (c : Config),
      (identitySystem deps).Reach (fun _ a => StartsInitial a) c →
      ∀ pair user c', Attributes deps pair user c c' → mapping c.shared.db pair = some user := by
  intro h
  have hstarts : ∀ a ∈ linkPlayer ++ overtakeLink, StartsInitial a := by
    simp only [linkPlayer, overtakeLink, List.cons_append, List.nil_append, List.forall_mem_cons]
    exact ⟨.link _ _ _, trivial, trivial, .link _ _ _, trivial, by simp⟩
  obtain ⟨hsome, hcall, hshots, hmapping⟩ :
      ((identitySystem driveDeps).execAll driveStored (linkPlayer ++ overtakeLink)).isSome = true ∧
        (overtaken.threads 0).bind Call.linking =
          some (.backfill playerPair "golfer-1" golferRow) ∧
        overtaken.shared.db.shots.map (fun row =>
          (shotPair row.toShotWithoutPayload, row.canonical_user_id)) = [(playerPair, none)] ∧
        mapping overtaken.shared.db playerPair = some "golfer-2" := by
    decide +kernel
  have hrun : (identitySystem driveDeps).Run (fun _ a => StartsInitial a) driveStored
      (linkPlayer ++ overtakeLink) overtaken :=
    System.run_of_isSome (fun a ha _ => hstarts a ha) hsome
  obtain ⟨c', hset⟩ := attributes_golfer hcall hshots
  have hmapped := h driveDeps overtaken
    ⟨driveStored, _, ⟨uniquePairs_driveStored, fun _ => rfl⟩, hrun⟩ _ _ _ hset
  exact absurd (hmapping.symm.trans hmapped) (by decide)

/-- What the call is about to commit, or to backfill, leaves the player with the user. -/
def Call.keepsPlayer : Call → Bool
  | .link (.commit p c _) => p ≠ playerPair ∨ c = "golfer-1"
  | .link (.del p c _) => p ≠ playerPair ∨ c = "golfer-1"
  | .link (.backfill p c _) => p ≠ playerPair ∨ c = "golfer-1"
  | .unlink (.commit p c _) => p ≠ playerPair ∨ c ≠ "golfer-1"
  | _ => true

theorem Call.keepsPlayer_awaits {call : Call} {user : String} (h : call.keepsPlayer = true)
    (hawaits : call.AwaitsBackfill playerPair user) : user = "golfer-1" := by
  cases call with
  | link s =>
      cases s with
      | del p c row =>
          obtain ⟨rfl, rfl⟩ := hawaits
          simpa [Call.keepsPlayer] using h
      | backfill p c row =>
          obtain ⟨rfl, rfl⟩ := hawaits
          simpa [Call.keepsPlayer] using h
      | _ => exact hawaits.elim
  | _ => exact hawaits.elim

theorem Call.keepsPlayer_overtakes {call : Call} (h : call.keepsPlayer = true) :
    ¬ call.Overtakes playerPair "golfer-1" := by
  intro hover
  cases call with
  | link s =>
      cases s with
      | commit p c actor =>
          obtain ⟨rfl, hne⟩ := hover
          exact hne (by simpa [Call.keepsPlayer] using h)
      | _ => exact hover.elim
  | unlink s =>
      cases s with
      | commit p c actor =>
          obtain ⟨rfl, rfl⟩ := hover
          exact absurd h (by simp [Call.keepsPlayer])
      | _ => exact hover.elim
  | _ => exact hover.elim

theorem linkedBeside_evaluates :
    ((identitySystem driveDeps).execAll driveStored (linkPlayer ++ besideBackfill)).isSome = true ∧
      (∀ k < 7, ∀ j < 3,
        ((identitySystem driveDeps).execAll driveStored ((linkPlayer ++ besideBackfill).take k)).map
          (fun d => (d.threads j).all Call.keepsPlayer) = some true) ∧
      (linkedBeside.threads 0).bind Call.linking =
        some (.backfill playerPair "golfer-1" golferRow) ∧
      (linkedBeside.shared.db.shots.map fun row =>
        (shotPair row.toShotWithoutPayload, row.canonical_user_id)) = [(playerPair, none)] := by
  decide +kernel

theorem linkedBeside_run : (identitySystem driveDeps).Run
    (fun c a => StartsInitial a ∧ NoneOvertaken playerPair c a) driveStored
      (linkPlayer ++ besideBackfill) linkedBeside := by
  have hstarts : ∀ a ∈ linkPlayer ++ besideBackfill, StartsInitial a := by
    simp only [linkPlayer, besideBackfill, List.cons_append, List.nil_append, List.forall_mem_cons]
    exact ⟨.link _ _ _, trivial, trivial, .link _ _ _, trivial, .unlink _ _ _, trivial, by simp⟩
  refine System.run_of_guards linkedBeside_evaluates.1 fun k a d ha hd =>
    ⟨hstarts a (List.mem_of_getElem? ha), ?_⟩
  obtain ⟨hk, _⟩ := List.getElem?_eq_some_iff.mp ha
  have hnone (j : ℕ) : d.threads (j + 3) = none := by
    refine Program.threads_of_execAll hd rfl fun p hp => ?_
    have hspawn := List.mem_of_mem_take hp
    simp [linkPlayer, besideBackfill] at hspawn
  have hkeeps {j : ℕ} {call : Call} (hj : d.threads j = some call) : call.keepsPlayer = true := by
    by_cases hlt : j < 3
    · have hall := linkedBeside_evaluates.2.1 k hk j hlt
      rw [hd, Option.map_some, Option.some_inj, hj] at hall
      exact hall
    · obtain ⟨m, rfl⟩ := Nat.exists_eq_add_of_le' (Nat.le_of_not_lt hlt)
      exact absurd ((hnone m).symm.trans hj) (by simp)
  rintro i label call rfl _ hi user hover j other hj hawaits
  obtain rfl := Call.keepsPlayer_awaits (hkeeps hj) hawaits
  exact Call.keepsPlayer_overtakes (hkeeps hi) hover

/-- Neither the second link nor the unlink overtakes the backfill, and it sets
what the player is mapped to. -/
theorem backfill_sets_mapping_player :
    (∃ c', Attributes driveDeps playerPair "golfer-1" linkedBeside c') ∧
      mapping linkedBeside.shared.db playerPair = some "golfer-1" := by
  obtain ⟨_, _, hcall, hshots⟩ := linkedBeside_evaluates
  obtain ⟨c', hset⟩ := attributes_golfer hcall hshots
  exact ⟨⟨c', hset⟩, (backfill_sets_mapping ⟨driveStored, linkPlayer ++ besideBackfill,
    ⟨uniquePairs_driveStored, fun _ => rfl⟩, linkedBeside_run⟩).1 _ _ hset⟩

end PureplayIngest
