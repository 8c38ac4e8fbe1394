import PureplayIngest.Identity.PairEffect
import PureplayIngest.Ingestion.DuplicateLinks

/-!
Whether the shots of a vendor user all get the canonical user it is linked to.

A shot that is inserted before the backfill is repaired by it, and an attempt
that resolves its shot after the commit of the link is to find the user. An
attempt that has resolved nothing may insert after the backfill, though; so it
may when it resolved before the commit, or when a resolve call that did has
cached its answer after the deletion. When no attempt holds such a resolution at
the backfill or reads one afterwards, every shot has the user.
-/

namespace PureplayIngest

open Shared.Domain Shared.Kysely Identity Ingestion Lib Service Webhooks

/-- The vendor user of a shot. -/
def shotPair (shot : ShotWithoutPayload) : Vendor × String := (shot.vendor, shot.vendor_user_id)

def Identity.ResolveState.pair : ResolveState → Vendor × String
  | .get pair => pair
  | .select pair => pair
  | .set pair _ => pair
  | .returned pair _ => pair

/-- The attempt has resolved the pair to `r`, and its shot is not inserted yet. -/
def Call.Resolved (pair : Vendor × String) (r : Option String) : Call → Prop
  | .process (.resolving _ (.set p result)) => p = pair ∧ result = r
  | .process (.upsert _ shot) =>
      shotPair shot.toShotWithoutPayload = pair ∧ shot.canonical_user_id = r
  | _ => False

/-- The attempt is about to read the entry of the pair. -/
def Call.Reads (pair : Vendor × String) (call : Call) : Prop :=
  ∃ job, call = .process (.resolving job (.get pair))

/-- The backfill of a link of the pair has run. -/
def Backfilled (c : Config) (pair : Vendor × String) : Prop :=
  HasCall c fun call => ∃ user row, call = .link (.finished pair user row true)

def NoOther (user : String) (r : Option String) : Prop := r = none ∨ r = some user

/-- Nothing that is stored for the pair names another user. -/
structure NoOtherUser (pair : Vendor × String) (user : String) (w : World) : Prop where
  unique : UniquePairs w.db
  mapping : NoOther user (Identity.mapping w.db pair)
  rows : ∀ row ∈ w.db.shots, shotPair row.toShotWithoutPayload = pair →
    NoOther user row.canonical_user_id
  cached : ∀ s, w.cached pair = some (.text s) → s = "" ∨ s = user

/-- The runs of the service from a pair that is not mapped. -/
def Service.unmappedSystem (deps : Deps) (pair : Vendor × String) (user : String) :
    System Config Action :=
  (program deps).system fun w => NoOtherUser pair user w ∧ mapping w.db pair = none

/-- Of the links and unlinks of the pair there is one, which is a link to the user. -/
def StartsOneLink (pair : Vendor × String) (user : String) (c : Config) (a : Action) : Prop :=
  ∀ i call, a = .spawn i call → call.mutation pair ≠ none →
    (∃ actor, call = .link (.commit pair user actor)) ∧
      ∀ j other, c.threads j = some other → other.mutation pair = none

/-- The condition under which every shot gets the user. When the backfill runs,
no attempt has resolved the pair to nothing and is yet to insert its shot; and
once it has run, no attempt reads that nothing is known of the pair. -/
def NothingHeld (pair : Vendor × String) (c : Config) (a : Action) : Prop :=
  ∀ i label call, a = .step i label → label ≠ .fail → c.threads i = some call →
    ((∃ user row, call = .link (.backfill pair user row)) →
      ∀ j other, c.threads j = some other → ¬ other.Resolved pair none) ∧
    (Backfilled c pair → call.Reads pair → c.shared.cached pair ≠ some (.text ""))

def BackfillGuard (deps : Deps) (pair : Vendor × String) (user : String) (c : Config) (a : Action) :
    Prop :=
  StartsParsedJobs deps.sha256 a ∧ StartsOneLink pair user c a ∧ NothingHeld pair c a

/-! ### What an attempt resolves -/

/-- An attempt that is resolving does so for its shot, which has no user yet. -/
def Call.OwnPair : Call → Prop
  | .process (.resolving job call) =>
      call.pair = shotPair job.normalisedShot.toShotWithoutPayload ∧
        job.normalisedShot.canonical_user_id = none
  | _ => True

/-- `canonicalUserId` as it is after a truthiness test. -/
def truthy (canonicalUserId : Option String) : Option String :=
  canonicalUserId.filter fun c => c ≠ ""

section

variable {deps : Deps} {w w' : World} {call call' : Call} {label : Label}
  {pair : Vendor × String} {user : String} {r : Option String}

theorem resolvedShot_pair (shot : NormalisedShot) (u : Option String) :
    shotPair (resolvedShot shot u).toShotWithoutPayload = shotPair shot.toShotWithoutPayload := by
  obtain ⟨c, hc⟩ := resolvedShot_eq shot u
  rw [hc]
  rfl

theorem resolvedShot_user {shot : NormalisedShot} (h : shot.canonical_user_id = none)
    (u : Option String) : (resolvedShot shot u).canonical_user_id = truthy u := by
  rw [resolvedShot.eq_def]
  split
  · exact h
  · split
    · rename_i hempty
      subst hempty
      exact h
    · rename_i hne
      exact (Option.filter_some_pos (by simpa using hne)).symm

theorem ResolveState.step_pair {stores stores' : Stores} {s s' : ResolveState}
    (h : s.step stores = some (stores', s')) : s'.pair = s.pair := by
  cases s with
  | get p =>
      rw [ResolveState.step] at h
      split at h
      · exact (Prod.mk.inj (Option.some.inj h)).2 ▸ rfl
      · exact absurd h (by simp)
      · exact (Prod.mk.inj (Option.some.inj h)).2 ▸ rfl
  | select p => exact (Prod.mk.inj (Option.some.inj h)).2 ▸ rfl
  | set p r => exact (Prod.mk.inj (Option.some.inj h)).2 ▸ rfl
  | returned p r => exact absurd h (by simp [ResolveState.step])

theorem step_ownPair (h : Service.step deps w call label = some (w', call'))
    (hown : call.OwnPair) : call'.OwnPair := by
  cases Service.step_cases h with
  | process hstep =>
      cases ProcessState.step_cases hstep with
      | resolving job hcall =>
          rename_i call₁ call₂ stores
          have hpair := ResolveState.step_pair hcall
          cases call₂ with
          | returned p r => trivial
          | _ => exact ⟨hpair.trans hown.1, hown.2⟩
      | _ => trivial
  | processFail hfail =>
      obtain ⟨job, rfl⟩ := ProcessState.fail_cases hfail
      trivial
  | _ => trivial

/-- Where a resolution comes from: the entry of the pair, its row, or the
attempt had it before. -/
inductive Resolution (pair : Vendor × String) (w : World) (call : Call) (r : Option String) : Prop
  | cached (s : String) (hreads : call.Reads pair) (hcached : w.cached pair = some (.text s))
      (hr : r = truthy (some s))
  | selected (hr : r = mapping w.db pair)
  | kept (before : Option String) (hbefore : call.Resolved pair before) (hr : r = truthy before)

theorem step_resolved (h : Service.step deps w call label = some (w', call')) (hown : call.OwnPair)
    (hresolved : call'.Resolved pair r) : Resolution pair w call r := by
  cases Service.step_cases h with
  | process hstep =>
      cases ProcessState.step_cases hstep with
      | @resolving job call₁ call₂ stores hcall =>
          obtain ⟨hpair, hnone⟩ := hown
          cases call₁ with
          | get p =>
              rw [ResolveState.step] at hcall
              split at hcall
              · rename_i s hcached
                obtain ⟨_, rfl⟩ := Prod.mk.inj (Option.some.inj hcall)
                obtain ⟨hp, hr⟩ := hresolved
                rw [resolvedShot_pair] at hp
                obtain rfl : p = pair := hpair.trans hp
                rw [resolvedShot_user hnone] at hr
                refine .cached s ⟨job, rfl⟩ hcached (hr.symm.trans ?_)
                -- An empty string in the cache stands for no mapping.
                split
                · rename_i hempty
                  subst hempty
                  rfl
                · rfl
              · exact absurd hcall (by simp)
              · obtain ⟨_, rfl⟩ := Prod.mk.inj (Option.some.inj hcall)
                exact hresolved.elim
          | select p =>
              obtain ⟨_, rfl⟩ := Prod.mk.inj (Option.some.inj hcall)
              obtain ⟨rfl, rfl⟩ := hresolved
              exact .selected rfl
          | set p result =>
              obtain ⟨_, rfl⟩ := Prod.mk.inj (Option.some.inj hcall)
              obtain ⟨hp, hr⟩ := hresolved
              rw [resolvedShot_pair] at hp
              rw [resolvedShot_user hnone] at hr
              exact .kept result ⟨hpair.trans hp, rfl⟩ hr.symm
          | returned p result => exact absurd hcall (by simp [ResolveState.step])
      | _ => exact hresolved.elim
  | processFail hfail =>
      obtain ⟨job, rfl⟩ := ProcessState.fail_cases hfail
      exact hresolved.elim
  | _ => exact hresolved.elim

end

/-! ### No other user -/

theorem Call.Initial.not_resolved {call : Call} (h : call.Initial) (pair : Vendor × String)
    (r : Option String) : ¬ call.Resolved pair r := by
  cases h with
  | process job =>
      rw [Ingestion.process]
      split <;> exact id
  | _ => exact id

def Identity.LinkState.canonicalUserId : LinkState → String
  | .commit _ c _ => c
  | .del _ c _ => c
  | .backfill _ c _ => c
  | .finished _ c _ _ => c
  | .rejected _ c _ => c

def Call.LinksTo (user : String) : Call → Prop
  | .link s => s.canonicalUserId = user
  | _ => False

/-- What holds of each call. -/
structure CallInv (pair : Vendor × String) (user : String) (w : World) (call : Call) : Prop where
  own : call.OwnPair
  links : call.mutation pair ≠ none → call.LinksTo user
  carried : ∀ r, call.Carries pair r → NoOther user r
  resolved : ∀ r, call.Resolved pair r → NoOther user r
  committed : call.mutation pair = some .committed ∨ call.mutation pair = some .returned →
    mapping w.db pair = some user

section

variable {deps : Deps} {w w' : World} {call call' : Call} {label : Label}
  {pair : Vendor × String} {user : String}

theorem NoOther.truthy {r : Option String} (h : NoOther user r) : NoOther user (truthy r) := by
  obtain rfl | rfl := h
  · exact .inl rfl
  · rw [PureplayIngest.truthy, Option.filter_some]
    split
    · exact .inr rfl
    · exact .inl rfl

theorem LinkState.step_user {stores stores' : Stores} {s s' : LinkState}
    (h : s.step stores = some (stores', s')) : s'.canonicalUserId = s.canonicalUserId := by
  cases s with
  | commit p c actor =>
      obtain ⟨⟨db, row⟩, _, heq⟩ := Option.map_eq_some_iff.mp h
      exact (Prod.mk.inj heq).2 ▸ rfl
  | del p c row => exact (Prod.mk.inj (Option.some.inj h)).2 ▸ rfl
  | backfill p c row => exact (Prod.mk.inj (Option.some.inj h)).2 ▸ rfl
  | _ => exact absurd h (by simp [LinkState.step])

theorem LinkState.fail_user {s s' : LinkState} (h : s.fail = some s') :
    s'.canonicalUserId = s.canonicalUserId := by
  cases s <;> cases h <;> rfl

theorem Call.LinksTo.step (hlinks : call.LinksTo user)
    (h : Service.step deps w call label = some (w', call')) : call'.LinksTo user := by
  cases Service.step_cases h with
  | link k hstep => exact (LinkState.step_user hstep).trans hlinks
  | linkFail hfail => exact (LinkState.fail_user hfail).trans hlinks
  | _ => exact hlinks.elim

/-- The row of the pair is changed by its link only. -/
theorem step_mapping (hunique : UniquePairs w.db)
    (h : Service.step deps w call label = some (w', call'))
    (hlinks : call.mutation pair ≠ none → call.LinksTo user) :
    mapping w'.db pair = mapping w.db pair ∨ mapping w'.db pair = some user := by
  cases step_table hunique h with
  | same hsame => exact .inl (mapping_congr hsame pair)
  | linked p c actor row hcall _ hlinked _ =>
      by_cases hp : p = pair
      · subst hp
        subst hcall
        obtain rfl : c = user := hlinks (by simp [Call.mutation])
        exact .inr hlinked.mapping_self
      · exact .inl (hlinked.mapping_other pair (Ne.symm hp))
  | unlinked p c actor hcall _ hunlinked _ =>
      by_cases hp : p = pair
      · subst hp
        subst hcall
        exact (hlinks (by simp [Call.mutation])).elim
      · exact .inl (hunlinked.mapping_other pair (Ne.symm hp))

/-- The commit of the link maps the pair to the user. -/
theorem step_committed (hunique : UniquePairs w.db)
    (h : Service.step deps w call label = some (w', call'))
    (hlinks : call.mutation pair ≠ none → call.LinksTo user)
    (hphase : call'.mutation pair = some .committed ∨ call'.mutation pair = some .returned) :
    mapping w'.db pair = some user ∨
      call.mutation pair = some .committed ∨ call.mutation pair = some .returned := by
  have heffect : PairEffect pair w w' call call' := step_effect hunique h
  obtain hsame | ⟨_, hrejected⟩ | ⟨hstart, hcommit⟩ | ⟨hcommit, _⟩ := heffect.phase
  · rw [hsame] at hphase
    exact .inr hphase
  · exact absurd hphase (by simp [hrejected])
  · have hlink : call.LinksTo user := hlinks (by simp [hstart])
    cases Service.step_cases h with
    | @link s s' stores k hstep =>
        cases s with
        | commit p c actor =>
            obtain ⟨⟨db, row⟩, htransaction, heq⟩ := Option.map_eq_some_iff.mp hstep
            obtain ⟨rfl, rfl⟩ := Prod.mk.inj heq
            obtain rfl : c = user := hlink
            obtain rfl : p = pair := by simpa [Call.mutation] using hstart
            exact .inl (linkTransaction_linked htransaction).mapping_self
        | rejected p c committed => exact absurd hstep (by simp [LinkState.step])
        | _ => simp [Call.mutation] at hstart
    | @linkFail s s' hfail =>
        cases s <;> cases hfail <;> simp [Call.mutation, rejectedPhase] at hstart hcommit
    | _ => exact hlink.elim
  · exact .inr (.inl hcommit)

theorem step_cached (heffect : PairEffect pair w w' call call')
    (hcarried : ∀ r, call.Carries pair r → NoOther user r)
    (hcached : ∀ s, w.cached pair = some (.text s) → s = "" ∨ s = user) {s : String}
    (hs : w'.cached pair = some (.text s)) : s = "" ∨ s = user := by
  cases heffect with
  | frame _ hcache _ _ => exact hcached s (hcache ▸ hs)
  | fill r hr _ hcache _ _ =>
      rw [hcache] at hs
      obtain rfl := CacheValue.text.inj (Option.some.inj hs)
      obtain rfl | rfl := hcarried r hr
      · exact .inl rfl
      · exact .inr rfl
  | commit _ _ hcache _ => exact hcached s (hcache ▸ hs)
  | evict _ _ _ hcache _ => exact absurd (hcache.symm.trans hs) (by simp)

/-- A row of a pair after a step was there before, and had no other user then,
or it is that of a shot which had been resolved. -/
theorem step_rows (h : Service.step deps w call label = some (w', call'))
    (hlinks : call.mutation pair ≠ none → call.LinksTo user) {row : NormalisedShot}
    (hrow : row ∈ w'.db.shots) (hpair : shotPair row.toShotWithoutPayload = pair) :
    row.canonical_user_id = some user ∨ call.Resolved pair row.canonical_user_id ∨
      ∃ old ∈ w.db.shots, shotPair old.toShotWithoutPayload = pair ∧
        row.canonical_user_id = old.canonical_user_id := by
  cases step_shotsEffect h with
  | frame hshots => exact .inr (.inr ⟨row, hshots ▸ hrow, hpair, rfl⟩)
  | insert job haccepted hkey hid hshots =>
      rw [hshots] at hrow
      obtain hrow | hrow := List.mem_append.mp hrow
      · exact .inr (.inr ⟨row, hrow, hpair, rfl⟩)
      · obtain rfl := List.mem_singleton.mp hrow
        exact .inr (.inl ⟨hpair, rfl⟩)
  | flag job shot id origin hshots =>
      rw [hshots] at hrow
      obtain ⟨old, hold, rfl⟩ := List.mem_map.mp hrow
      split at hpair
      · rename_i hid
        rw [if_pos hid]
        exact .inr (.inr ⟨old, hold, hpair, rfl⟩)
      · rename_i hid
        rw [if_neg hid]
        exact .inr (.inr ⟨old, hold, hpair, rfl⟩)
  | backfill p c identity hshots =>
      rw [hshots] at hrow
      obtain ⟨old, hold, rfl⟩ := List.mem_map.mp hrow
      split at hpair
      · rename_i hmatch
        rw [if_pos hmatch]
        -- A backfill writes its own user into the rows of its own pair.
        obtain rfl : p = pair := by
          rw [← hpair, shotPair, hmatch.1, hmatch.2.1]
        obtain rfl : c = user := hlinks (by simp [Call.mutation])
        exact .inl rfl
      · rename_i hmatch
        rw [if_neg hmatch]
        exact .inr (.inr ⟨old, hold, hpair, rfl⟩)

end

/-! ### Before and after the backfill -/

section

variable {deps : Deps} {c c' : Config} {a : Action} {w' : World} {call call' : Call}
  {label : Label} {pair : Vendor × String} {user : String}

abbrev UserInv (pair : Vendor × String) (user : String) (c : Config) : Prop :=
  Program.Inv (NoOtherUser pair user) (fun _ : ℕ => CallInv pair user) c

theorem NoOtherUser.step (hinv : NoOtherUser pair user c.shared)
    (hcall : CallInv pair user c.shared call)
    (h : Service.step deps c.shared call label = some (w', call')) : NoOtherUser pair user w' := by
  have heffect : PairEffect pair c.shared w' call call' := step_effect hinv.unique h
  refine ⟨(step_table hinv.unique h).unique hinv.unique, ?_, fun row hrow hpair => ?_, fun s hs =>
    step_cached heffect hcall.carried hinv.cached hs⟩
  · obtain hsame | hsome := step_mapping hinv.unique h hcall.links
    · rw [hsame]
      exact hinv.mapping
    · exact .inr hsome
  · obtain huser | hresolved | ⟨old, hold, hpair', heq⟩ := step_rows h hcall.links hrow hpair
    · exact .inr huser
    · exact hcall.resolved _ hresolved
    · rw [heq]
      exact hinv.rows old hold hpair'

theorem CallInv.step (hcall : CallInv pair user c.shared call)
    (hinv : NoOtherUser pair user c.shared)
    (h : Service.step deps c.shared call label = some (w', call')) :
    CallInv pair user w' call' := by
  have heffect : PairEffect pair c.shared w' call call' := step_effect hinv.unique h
  refine ⟨step_ownPair h hcall.own, fun hmutation => (hcall.links ?_).step h, fun r hr => ?_,
    fun r hr => ?_, fun hphase => ?_⟩
  · intro hnone
    obtain hsame | ⟨hstart, _⟩ | ⟨hstart, _⟩ | ⟨hcommit, _⟩ := heffect.phase
    · exact hmutation (hsame.trans hnone)
    · exact absurd (hnone.symm.trans hstart) (by simp)
    · exact absurd (hnone.symm.trans hstart) (by simp)
    · exact absurd (hnone.symm.trans hcommit) (by simp)
  · cases heffect with
    | frame _ _ hcarry _ =>
        rw [hcarry r hr]
        exact hinv.mapping
    | fill _ _ _ _ hcarry _ => exact absurd hr (hcarry r)
    | commit _ _ _ hcarry => exact absurd hr (hcarry r)
    | evict _ _ _ _ hcarry => exact absurd hr (hcarry r)
  · -- What a call resolves comes from the cache, from the table or from before.
    cases step_resolved h hcall.own hr with
    | cached s _ hcached hs =>
        rw [hs]
        obtain rfl | rfl := hinv.cached s hcached
        · exact .inl rfl
        · exact NoOther.truthy (.inr rfl)
    | selected hs =>
        rw [hs]
        exact hinv.mapping
    | kept before hbefore hs =>
        rw [hs]
        exact (hcall.resolved before hbefore).truthy
  · obtain hsome | hbefore := step_committed hinv.unique h hcall.links hphase
    · exact hsome
    · have hmapped := hcall.committed hbefore
      obtain hsame | hsome := step_mapping hinv.unique h hcall.links
      · exact hsame.trans hmapped
      · exact hsome

/-- Other calls are only told of the row of the pair, which may be set to the user. -/
theorem CallInv.of_mapping {w w' : World} (hcall : CallInv pair user w call)
    (hmapping : mapping w.db pair = some user → mapping w'.db pair = some user) :
    CallInv pair user w' call :=
  ⟨hcall.own, hcall.links, hcall.carried, hcall.resolved, fun h => hmapping (hcall.committed h)⟩

theorem callInv_of_start {sha256 : String → String} {w : World} {i : ℕ}
    (hstart : StartsParsedJobs sha256 (.spawn i call))
    (hlink : call.mutation pair ≠ none → ∃ actor, call = .link (.commit pair user actor)) :
    CallInv pair user w call := by
  have hinitial := hstart.initial
  refine ⟨?_, fun h => ?_, fun r hr => absurd hr (hinitial.not_carries pair r), fun r hr => ?_,
    fun h => ?_⟩
  · cases call with
    | process s =>
        obtain ⟨job, rfl, hparsed⟩ := hstart
        rw [process]
        split
        · trivial
        · exact ⟨rfl, hparsed.fresh.canonical_user_id⟩
    | _ => trivial
  · obtain ⟨actor, rfl⟩ := hlink h
    rfl
  · exact absurd hr (hinitial.not_resolved pair r)
  · obtain hnone | hstarted := hinitial.mutation pair
    · simp [hnone] at h
    · simp [hstarted] at h

theorem NoOtherUser.event {w : World} {x : Event} (hinv : NoOtherUser pair user w)
    (hevent : Service.event w x = some w') : NoOtherUser pair user w' := by
  have hids := event_identities hevent
  refine ⟨?_, ?_, fun row hrow => ?_, fun s hs => hinv.cached s (event_cached hevent hs)⟩
  · rw [UniquePairs, hids]
    exact hinv.unique
  · rw [mapping_congr hids]
    exact hinv.mapping
  · exact hinv.rows row ((event_same hevent).shots ▸ hrow)

theorem UserInv.step (hinv : UserInv pair user c) (hparsed : StartsParsedJobs deps.sha256 a)
    (hlink : StartsOneLink pair user c a) (hexec : (program deps).exec c a = some c') :
    UserInv pair user c' := by
  refine Program.Inv.step hinv hexec ?_ ?_ ?_
  · rintro i call rfl
    exact callInv_of_start hparsed fun h => (hlink i call rfl h).1
  · rintro i label call w' call' rfl hi hstep
    have hcall := hinv.threads i call hi
    refine ⟨hinv.shared.step hcall hstep, hcall.step hinv.shared hstep, fun j other _ hj => ?_⟩
    refine (hinv.threads j other hj).of_mapping fun hmapped => ?_
    obtain hsame | hsome := step_mapping hinv.shared.unique hstep hcall.links
    · exact hsame.trans hmapped
    · exact hsome
  · rintro x w' rfl hevent
    refine ⟨hinv.shared.event hevent, fun j other hj => ?_⟩
    refine (hinv.threads j other hj).of_mapping fun hmapped => ?_
    exact (mapping_congr (event_identities hevent) pair).trans hmapped

/-- All shots of the pair have the user, the ones that are still to be inserted as well. -/
structure Repaired (pair : Vendor × String) (user : String) (c : Config) : Prop where
  rows : ∀ row ∈ c.shared.db.shots, shotPair row.toShotWithoutPayload = pair →
    row.canonical_user_id = some user
  resolved : ∀ i call r, c.threads i = some call → call.Resolved pair r → r = some user

/-- The step after which a backfill has run. -/
theorem step_backfilled {w : World} {p : Vendor × String} {u : String} {row : VendorIdentity}
    (h : Service.step deps w call label = some (w', .link (.finished p u row true))) :
    call = .link (.backfill p u row) ∧ label ≠ .fail ∧ w'.db = backfillCanonicalUser w.db p u := by
  cases Service.step_cases h with
  | @link s s' stores k hstep =>
      cases s with
      | commit p' c' actor =>
          obtain ⟨⟨db, row'⟩, _, heq⟩ := Option.map_eq_some_iff.mp hstep
          exact absurd (Prod.mk.inj heq).2 (by simp)
      | del p' c' row' => exact absurd (Prod.mk.inj (Option.some.inj hstep)).2 (by simp)
      | backfill p' c' row' =>
          obtain ⟨rfl, heq⟩ := Prod.mk.inj (Option.some.inj hstep)
          obtain ⟨rfl, rfl, rfl, _⟩ := LinkState.finished.inj heq
          exact ⟨rfl, by simp, rfl⟩
      | _ => exact absurd hstep (by simp [LinkState.step])
  | @linkFail s s' hfail => cases s <;> simp [LinkState.fail] at hfail

/-- The backfill sets the user wherever none is, and no attempt is left that holds nothing. -/
theorem repaired_of_backfill {w : World} {row : VendorIdentity} {i : ℕ}
    (hinv : UserInv pair user c) (hdb : w.db = backfillCanonicalUser c.shared.db pair user)
    (hnone : ∀ j other, c.threads j = some other → ¬ other.Resolved pair none) :
    Repaired pair user
      ⟨w, Function.update c.threads i (some (.link (.finished pair user row true)))⟩ := by
  refine ⟨fun row hrow hpair => ?_, fun j other r hj hr => ?_⟩
  · change row ∈ w.db.shots at hrow
    rw [hdb] at hrow
    obtain ⟨old, hold, rfl⟩ := List.mem_map.mp hrow
    split at hpair
    · rename_i hmatch
      rw [if_pos hmatch]
    · rename_i hmatch
      rw [if_neg hmatch]
      refine (hinv.shared.rows old hold hpair).resolve_left fun hnull => hmatch ?_
      subst hpair
      exact ⟨rfl, rfl, hnull⟩
  · obtain ⟨_, rfl⟩ | ⟨_, hj⟩ := Program.update_cases hj
    · exact hr.elim
    · refine ((hinv.threads j other hj).resolved r hr).resolve_left ?_
      rintro rfl
      exact hnone j other hj hr

/-- An attempt that fails holds no resolution. -/
theorem not_fail_of_resolved {w : World} {r : Option String}
    (h : Service.step deps w call label = some (w', call')) (hr : call'.Resolved pair r) :
    label ≠ .fail := by
  rintro rfl
  cases Service.step_cases h with
  | processFail hfail =>
      obtain ⟨job, rfl⟩ := ProcessState.fail_cases hfail
      exact hr.elim
  | _ => exact hr.elim

theorem Repaired.step {i : ℕ} (h : Repaired pair user c) (huser : user ≠ "")
    (hinv : UserInv pair user c) (hmapped : mapping c.shared.db pair = some user)
    (hi : c.threads i = some call)
    (hstep : Service.step deps c.shared call label = some (w', call'))
    (hread : label ≠ .fail → call.Reads pair → c.shared.cached pair ≠ some (.text "")) :
    Repaired pair user ⟨w', Function.update c.threads i (some call')⟩ := by
  have hcall := hinv.threads i call hi
  have htruthy : truthy (some user) = some user := Option.filter_some_pos (by simpa using huser)
  refine ⟨fun row hrow hpair => ?_, fun j other r hj hr => ?_⟩
  · obtain hsome | hresolved | ⟨old, hold, hpair', heq⟩ := step_rows hstep hcall.links hrow hpair
    · exact hsome
    · exact h.resolved i call _ hi hresolved
    · rw [heq]
      exact h.rows old hold hpair'
  · obtain ⟨_, rfl⟩ | ⟨_, hj⟩ := Program.update_cases hj
    · cases step_resolved hstep hcall.own hr with
      | cached s hreads hcached hs =>
          obtain rfl | rfl := hinv.shared.cached s hcached
          · exact absurd hcached (hread (not_fail_of_resolved hstep hr) hreads)
          · exact hs.trans htruthy
      | selected hs => exact hs.trans hmapped
      | kept before hbefore hs =>
          rw [h.resolved i call before hi hbefore] at hs
          exact hs.trans htruthy
    · exact h.resolved j other r hj hr

structure BackfillInv (pair : Vendor × String) (user : String) (c : Config) : Prop where
  calls : UserInv pair user c
  repaired : Backfilled c pair → Repaired pair user c

theorem BackfillInv.step (hinv : BackfillInv pair user c) (huser : user ≠ "")
    (hguard : BackfillGuard deps pair user c a) (hexec : (program deps).exec c a = some c') :
    BackfillInv pair user c' := by
  obtain ⟨hparsed, hlink, hheld⟩ := hguard
  refine ⟨hinv.calls.step hparsed hlink hexec, fun hbackfilled => ?_⟩
  obtain ⟨i, call, rfl, _, rfl⟩ | ⟨i, label, call, w', call', rfl, hi, hstep, rfl⟩ |
    ⟨x, w', rfl, hevent, rfl⟩ := Program.exec_cases hexec
  · have hinitial := hparsed.initial
    obtain ⟨j, other, hj, u, row, rfl⟩ := hbackfilled
    obtain ⟨_, rfl⟩ | ⟨_, hj⟩ := Program.update_cases hj
    · cases hinitial
    · obtain ⟨hrows, hresolved⟩ := hinv.repaired ⟨j, _, hj, u, row, rfl⟩
      refine ⟨hrows, fun k other r hk hr => ?_⟩
      obtain ⟨_, rfl⟩ | ⟨_, hk⟩ := Program.update_cases hk
      · exact absurd hr (hinitial.not_resolved pair r)
      · exact hresolved k other r hk hr
  · obtain ⟨j, other, hj, u, row, rfl⟩ := hbackfilled
    obtain ⟨_, rfl⟩ | ⟨_, hj⟩ := Program.update_cases hj
    · obtain ⟨rfl, hfail, hdb⟩ := step_backfilled hstep
      obtain rfl : u = user := (hinv.calls.threads i _ hi).links (by simp [Call.mutation])
      exact repaired_of_backfill hinv.calls hdb ((hheld i label _ rfl hfail hi).1 ⟨u, row, rfl⟩)
    · have hbefore : Backfilled c pair := ⟨j, _, hj, u, row, rfl⟩
      have hmapped := (hinv.calls.threads j _ hj).committed (.inr (if_pos rfl))
      exact (hinv.repaired hbefore).step huser hinv.calls hmapped hi hstep fun hfail =>
        (hheld i label call rfl hfail hi).2 hbefore
  · obtain ⟨hrows, hresolved⟩ := hinv.repaired hbackfilled
    exact ⟨fun row hrow => hrows row ((event_same hevent).shots ▸ hrow), hresolved⟩

end

/-! ### An attempt that is slower than a link -/

/-- Nothing that is running goes on. -/
def isOver : Call → Bool
  | .process (.returned _) => true
  | .process (.failed _) => true
  | .resolve (.returned _ _) => true
  | .link (.finished _ _ _ _) => true
  | .unlink (.finished _ _) => true
  | .unlink (.notFound _ _) => true
  | .list (.finished _ _) => true
  | _ => false

def playerPair : Vendor × String := (.trackpro, "demo-player-1")

def playerUser : String := "01HS0N8R9MCANONICALUSER001"

def Call.linking : Call → Option LinkState
  | .link s => some s
  | _ => none

theorem backfilled_of_linking {c : Config} {pair : Vendor × String} (i : ℕ) (user : String)
    (row : VendorIdentity)
    (h : (c.threads i).bind Call.linking = some (.finished pair user row true)) :
    Backfilled c pair := by
  obtain ⟨call, hi, hlinking⟩ := Option.bind_eq_some_iff.mp h
  cases call with
  | link s =>
      obtain rfl := Option.some.inj hlinking
      exact ⟨i, _, hi, user, row, rfl⟩
  | _ => exact absurd hlinking (by simp [Call.linking])

/-- The row of the link. -/
def playerRow : VendorIdentity where
  id := 1
  vendor := .trackpro
  vendor_user_id := "demo-player-1"
  canonical_user_id := playerUser
  created_at := 1710498600000
  updated_at := 1710498600000

instance (pair : Vendor × String) (r : Option String) (call : Call) :
    Decidable (call.Resolved pair r) :=
  match call with
  | .process (.resolving _ (.set p result)) => inferInstanceAs (Decidable (p = pair ∧ result = r))
  | .process (.upsert _ shot) => inferInstanceAs
      (Decidable (shotPair shot.toShotWithoutPayload = pair ∧ shot.canonical_user_id = r))
  | .process (.resolving _ (.get _)) => inferInstanceAs (Decidable False)
  | .process (.resolving _ (.select _)) => inferInstanceAs (Decidable False)
  | .process (.resolving _ (.returned _ _)) => inferInstanceAs (Decidable False)
  | .process (.recordFailure _) => inferInstanceAs (Decidable False)
  | .process (.lookup _ _ _) => inferInstanceAs (Decidable False)
  | .process (.flag _ _ _ _) => inferInstanceAs (Decidable False)
  | .process (.patchOutbox _ _ _) => inferInstanceAs (Decidable False)
  | .process (.returned _) => inferInstanceAs (Decidable False)
  | .process (.failed _) => inferInstanceAs (Decidable False)
  | .resolve _ => inferInstanceAs (Decidable False)
  | .link _ => inferInstanceAs (Decidable False)
  | .unlink _ => inferInstanceAs (Decidable False)
  | .list _ => inferInstanceAs (Decidable False)

/-- What `P` says of all calls, where they are the first `n`. -/
def allCalls (n : ℕ) (c : Config) (P : Call → Bool) : Bool :=
  (List.range n).all fun j => (c.threads j).all P

theorem of_allCalls {n : ℕ} {c : Config} {P : Call → Bool} (hnone : ∀ j, n ≤ j → c.threads j = none)
    (h : allCalls n c P = true) {j : ℕ} {call : Call} (hj : c.threads j = some call) :
    P call = true := by
  rw [allCalls, List.all_eq_true] at h
  have hlt : j < n := by
    by_contra hle
    exact absurd ((hnone j (Nat.not_lt.mp hle)).symm.trans hj) (by simp)
  have hcall := h j (List.mem_range.mpr hlt)
  rw [hj] at hcall
  simpa using hcall

/-- `StartsOneLink`, evaluated. -/
def startsOneLink (n : ℕ) (pair : Vendor × String) (user : String) (c : Config) : Action → Bool
  | .spawn _ (.link (.commit p u _)) =>
      p = pair ∧ u = user ∧ allCalls n c fun other => other.mutation pair = none
  | .spawn _ call => call.mutation pair = none
  | _ => true

/-- `NothingHeld`, evaluated. -/
def nothingHeld (n : ℕ) (pair : Vendor × String) (c : Config) : Action → Bool
  | .step i _ =>
      match c.threads i with
      | some (.link (.backfill _ _ _)) => allCalls n c fun other => ¬ other.Resolved pair none
      | some (.process (.resolving _ (.get _))) => c.shared.cached pair ≠ some (.text "")
      | _ => true
  | _ => true

theorem startsOneLink_spec {n : ℕ} {pair : Vendor × String} {user : String} {c : Config}
    {a : Action} (hnone : ∀ j, n ≤ j → c.threads j = none)
    (h : startsOneLink n pair user c a = true) : StartsOneLink pair user c a := by
  rintro i call rfl hmutation
  rw [startsOneLink.eq_def] at h
  split at h
  · rename_i i' p u actor heq
    obtain ⟨rfl, rfl⟩ := Lib.Action.spawn.inj heq
    obtain ⟨rfl, rfl, hothers⟩ := of_decide_eq_true h
    exact ⟨⟨actor, rfl⟩, fun j other hj => of_decide_eq_true (of_allCalls hnone hothers hj)⟩
  · rename_i i' call' _ heq
    obtain ⟨rfl, rfl⟩ := Lib.Action.spawn.inj heq
    exact absurd (of_decide_eq_true h) hmutation
  · rename_i hspawn
    exact absurd rfl (hspawn i call)

theorem nothingHeld_spec {n : ℕ} {pair : Vendor × String} {c : Config} {a : Action}
    (hnone : ∀ j, n ≤ j → c.threads j = none) (h : nothingHeld n pair c a = true) :
    NothingHeld pair c a := by
  rintro i label call rfl _ hi
  rw [nothingHeld] at h
  rw [hi] at h
  refine ⟨?_, fun _ hreads => ?_⟩
  · rintro ⟨user, row, rfl⟩ j other hj
    exact of_decide_eq_true (of_allCalls hnone h hj)
  · obtain ⟨job, rfl⟩ := hreads
    exact of_decide_eq_true h

/-- The attempt for the first drive finds no user, a link commits, deletes and
backfills, and the attempt inserts and ends. -/
def lateInsertActions : List Action :=
  [.spawn 0 (.process (process (driveJob firstId firstDrive))),
    .step 0 (.ok 0), .step 0 (.ok 0), .step 0 (.ok 0),
    .spawn 1 (.link (.commit playerPair playerUser "internal-api")),
    .step 1 (.ok 0), .step 1 (.ok 0), .step 1 (.ok 0), .step 0 (.ok 0), .step 0 (.ok 0)]

def afterLateInsert : Config :=
  ((unmappedSystem driveDeps playerPair playerUser).execAll noCalls lateInsertActions).getD noCalls

theorem noOtherUser_freshWorld (pair : Vendor × String) (user : String) :
    NoOtherUser pair user freshWorld ∧ mapping freshWorld.db pair = none :=
  ⟨⟨List.nodup_nil, .inl rfl, fun row hrow => absurd hrow (by simp [freshWorld, Database.empty]),
    fun s hs => absurd hs (by simp [freshWorld, Stores.cached])⟩, rfl⟩

theorem startsParsedJobs_player {i : ℕ} : StartsParsedJobs driveSha256
    (.spawn i (.link (.commit playerPair playerUser "internal-api"))) :=
  .link _ _ _

theorem startsParsedJobs_lateInsert : ∀ a ∈ lateInsertActions, StartsParsedJobs driveSha256 a := by
  simp only [lateInsertActions, List.forall_mem_cons]
  refine ⟨startsParsedJobs_drive, trivial, trivial, trivial, startsParsedJobs_player, ?_⟩
  simp [StartsParsedJobs]

/-- The attempt for the first drive has ended before the link starts, and the
one for the second drive starts after its backfill. -/
def repairActions : List Action :=
  [.spawn 0 (.process (process (driveJob firstId firstDrive))),
    .step 0 (.ok 0), .step 0 (.ok 0), .step 0 (.ok 0), .step 0 (.ok 0), .step 0 (.ok 0),
    .spawn 1 (.link (.commit playerPair playerUser "internal-api")),
    .step 1 (.ok 0), .step 1 (.ok 0), .step 1 (.ok 0),
    .spawn 2 (.process (process (driveJob secondId secondDrive))),
    .step 2 (.ok 0), .step 2 (.ok 0), .step 2 (.ok 0), .step 2 (.ok 0)]

def afterRepair : Config :=
  ((unmappedSystem driveDeps playerPair playerUser).execAll noCalls repairActions).getD noCalls

theorem repairActions_evaluate :
    ((unmappedSystem driveDeps playerPair playerUser).execAll noCalls
        repairActions).isSome = true ∧
      (∀ k < repairActions.length,
        ((unmappedSystem driveDeps playerPair playerUser).execAll noCalls
          (repairActions.take k)).bind (fun d => repairActions[k]?.map fun a =>
            startsOneLink 3 playerPair playerUser d a && nothingHeld 3 playerPair d a) =
              some true) ∧
      afterRepair.shared.db.shots.length = 2 ∧
      (afterRepair.threads 1).bind Call.linking =
        some (.finished playerPair playerUser playerRow true) := by
  decide +kernel

theorem run_repairActions : (unmappedSystem driveDeps playerPair playerUser).Run
    (BackfillGuard driveDeps playerPair playerUser) noCalls repairActions afterRepair := by
  obtain ⟨hsome, hchecks, _⟩ := repairActions_evaluate
  have hstarts : ∀ a ∈ repairActions, StartsParsedJobs driveSha256 a := by
    simp only [repairActions, List.forall_mem_cons]
    refine ⟨startsParsedJobs_drive, trivial, trivial, trivial, trivial, trivial,
      startsParsedJobs_player, trivial, trivial, trivial, startsParsedJobs_drive, ?_⟩
    simp [StartsParsedJobs]
  refine System.run_of_guards hsome fun k a d ha hd => ?_
  have hnone (j : ℕ) (hj : 3 ≤ j) : d.threads j = none := by
    refine Program.threads_of_execAll hd rfl fun p hp => ?_
    have hmem := List.take_subset k _ hp
    simp only [repairActions, List.mem_cons, List.not_mem_nil, or_false, reduceCtorEq, false_or,
      Lib.Action.spawn.injEq] at hmem
    omega
  obtain ⟨hk, _⟩ := List.getElem?_eq_some_iff.mp ha
  have hcheck := hchecks k hk
  rw [hd, Option.bind_some, ha, Option.map_some, Option.some_inj, Bool.and_eq_true] at hcheck
  exact ⟨hstarts a (List.mem_of_getElem? ha), startsOneLink_spec hnone hcheck.1,
    nothingHeld_spec hnone hcheck.2⟩

end PureplayIngest
