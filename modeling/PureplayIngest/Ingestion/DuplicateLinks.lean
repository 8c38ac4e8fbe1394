import PureplayIngest.Ingestion.ShotsEffect
import PureplayIngest.Lib.Acyclic
import PureplayIngest.Webhooks.Parsed

/-!
The duplicate links between rows of `shots`.

An attempt inserts its shot, then looks for an origin, then sets the link.
Two shots of one burst may both be inserted before either looks, and then each
can find the other. When no attempt looks while another one, whose row it can
find, has inserted and not looked yet, a shot is no origin before it has been
looked up for itself: the origins that are chosen, set already or not, are a
graph that grows by edges from shots nothing leads to.
-/

namespace PureplayIngest

open Shared.Domain Shared.Kysely Identity Ingestion Lib Service Webhooks Relation

/-- The row `a` is flagged as a duplicate of `b`. -/
def Links (db : Database) (a b : String) : Prop :=
  ∃ row ∈ db.shots, row.canonical_shot_id = a ∧ row.duplicate_of = some b

/-- What `duplicate_of IS NULL` selects, in the listing and in the statistics. -/
def VisibleByDefault (row : NormalisedShot) : Prop := row.duplicate_of = none

/-- The shot a call is about to flag, and its origin. -/
def Call.chosen : Call → Option (String × String)
  | .process (.flag _ shot _ origin) => some (shot.canonical_shot_id, origin)
  | _ => none

/-- `b` is, or is about to be set as, the origin of `a`. -/
def Chosen (c : Config) (a b : String) : Prop :=
  Links c.shared.db a b ∨ HasCall c fun call => call.chosen = some (a, b)

/-- The shot a call has inserted and is to look up an origin for. -/
def Call.looking : Call → Option NormalisedShot
  | .process (.lookup _ shot _) => some shot
  | _ => none

/-- The runs of the service from tables whose links lead to rows and have no cycle. -/
def Service.linkSystem (deps : Deps) : System Config Action :=
  (program deps).system fun w => Acyclic (Links w.db) ∧
    ∀ a b, Links w.db a b → ∃ row ∈ w.db.shots, row.canonical_shot_id = b

/-- Calls start at their beginning, and jobs come from the parsers. -/
def StartsParsedJobs (sha256 : String → String) : Action → Prop
  | .spawn _ (.process s) =>
      ∃ job, s = Ingestion.process job ∧ ParserProduced sha256 job.normalisedShot
  | .spawn _ call => call.Initial
  | _ => True

/-- No attempt makes its origin query while another one is between the insert
and the origin query of a shot that the query can find. -/
def LooksUpApart (sha256 : String → String) (c : Config) : Action → Prop
  | .step i (.ok _) => ∀ call shot, c.threads i = some call → call.looking = some shot →
      ∀ j other inserted, j ≠ i → c.threads j = some other → other.looking = some inserted →
        ¬ CanFind sha256 shot.toShotWithoutPayload inserted.toShotWithoutPayload
  | _ => True

/-- The condition under which no cycle arises, as a guard on the actions. -/
def LinkGuard (deps : Deps) (c : Config) (a : Action) : Prop :=
  StartsParsedJobs deps.sha256 a ∧ LooksUpApart deps.sha256 c a

/-- The shot is stored, and its row is as it was inserted but for the columns
that are written later. -/
structure RowOf (db : Database) (shot : NormalisedShot) : Prop where
  stored : ∃ row ∈ db.shots, row.canonical_shot_id = shot.canonical_shot_id
  columns : ∀ row ∈ db.shots, row.canonical_shot_id = shot.canonical_shot_id → row = { shot with
    canonical_user_id := row.canonical_user_id, duplicate_of := row.duplicate_of }

/-- What holds in every state reached. A shot that is still to be looked up for
is nobody's origin. -/
structure LinkInv (c : Config) : Prop where
  acyclic : Acyclic (Chosen c)
  origins : ∀ a b, Chosen c a b → ∃ row ∈ c.shared.db.shots, row.canonical_shot_id = b
  unflagged : ∀ i call shot, c.threads i = some call → call.pendingShot = some shot →
    shot.duplicate_of = none
  looking : ∀ i call shot, c.threads i = some call → call.looking = some shot →
    RowOf c.shared.db shot ∧ ∀ a, ¬ Chosen c a shot.canonical_shot_id

/-! ### What a step does to the links -/

theorem links_flagDuplicate {db : Database} {id origin a b : String}
    (h : Links (flagDuplicate db id origin) a b) : Links db a b ∨ a = id ∧ b = origin := by
  obtain ⟨row, hrow, rfl, hdup⟩ := h
  obtain ⟨old, hold, rfl⟩ := List.mem_map.mp hrow
  split at hdup
  · rename_i hid
    rw [if_pos hid]
    exact .inr ⟨hid, (Option.some.inj hdup).symm⟩
  · rename_i hid
    rw [if_neg hid]
    exact .inl ⟨old, hold, rfl, hdup⟩

theorem links_backfill {db : Database} {pair : Vendor × String} {user a b : String}
    (h : Links (backfillCanonicalUser db pair user) a b) : Links db a b := by
  obtain ⟨row, hrow, rfl, hdup⟩ := h
  obtain ⟨old, hold, rfl⟩ := List.mem_map.mp hrow
  split at hdup
  · rename_i hmatch
    rw [if_pos hmatch]
    exact ⟨old, hold, rfl, hdup⟩
  · rename_i hmatch
    rw [if_neg hmatch]
    exact ⟨old, hold, rfl, hdup⟩

theorem links_congr {db db' : Database} (h : db'.shots = db.shots) {a b : String} :
    Links db' a b ↔ Links db a b := by
  rw [Links, Links, h]

variable {c c' : Config} {a : Action} {deps : Deps} {w w' : World} {call call' : Call}
  {label : Label}

/-- A link there is after a step was there before or is what the call had chosen. -/
theorem step_links (h : Service.step deps w call label = some (w', call'))
    (hpending : ∀ shot, call.pendingShot = some shot → shot.duplicate_of = none) {x y : String}
    (hlink : Links w'.db x y) : Links w.db x y ∨ call.chosen = some (x, y) := by
  cases step_shotsEffect h with
  | frame hshots => exact .inl ((links_congr hshots).mp hlink)
  | insert job haccepted hkey hid hshots =>
      obtain ⟨row, hrow, hx, hdup⟩ := hlink
      rw [hshots, List.mem_append, List.mem_singleton] at hrow
      obtain hrow | rfl := hrow
      · exact .inl ⟨row, hrow, hx, hdup⟩
      · exact absurd ((hpending row rfl).symm.trans hdup) (by simp)
  | flag job shot id origin hshots =>
      obtain hold | ⟨rfl, rfl⟩ := links_flagDuplicate ((links_congr hshots).mp hlink)
      · exact .inl hold
      · exact .inr rfl
  | backfill pair user row hshots =>
      exact .inl (links_backfill ((links_congr hshots).mp hlink))

/-- What a call has chosen after a step is what the origin query has returned. -/
theorem step_choose (h : Service.step deps w call label = some (w', call')) {x y : String}
    (hchosen : call'.chosen = some (x, y)) :
    ∃ job shot id k origins origin, label = .ok k ∧ call = .process (.lookup job shot id) ∧
      originCandidates deps.sha256 w.db shot.toShotWithoutPayload = .ok origins ∧
      origins[k]? = some origin ∧ x = shot.canonical_shot_id ∧ y = origin.canonical_shot_id := by
  cases Service.step_cases h with
  | process hstep =>
      cases ProcessState.step_cases hstep with
      | choose job id hrows horigin =>
          obtain ⟨rfl, rfl⟩ := Prod.mk.inj (Option.some.inj hchosen)
          exact ⟨job, _, id, _, _, _, rfl, rfl, hrows, horigin, rfl, rfl⟩
      | resolving job hcall =>
          rename_i call₁ call₂ stores
          cases call₂ <;> exact absurd hchosen (by simp [Call.chosen, Ingestion.afterResolve])
      | _ => exact absurd hchosen (by simp [Call.chosen])
  | processFail hfail =>
      obtain ⟨job, rfl⟩ := ProcessState.fail_cases hfail
      exact absurd hchosen (by simp [Call.chosen])
  | _ => exact absurd hchosen (by simp [Call.chosen])

/-- A call that is to look up an origin has just inserted its shot, and the shot is new. -/
theorem step_looking (h : Service.step deps w call label = some (w', call'))
    {shot : NormalisedShot} (hlooking : call'.looking = some shot) :
    call'.chosen = none ∧ (∀ row ∈ w.db.shots, row.canonical_shot_id ≠ shot.canonical_shot_id) ∧
      w'.db.shots = w.db.shots ++ [shot] := by
  cases Service.step_cases h with
  | process hstep =>
      cases ProcessState.step_cases hstep with
      | inserted job hupsert =>
          obtain rfl := Option.some.inj hlooking
          obtain ⟨_, hcases⟩ := upsertIfNew_cases hupsert
          cases hcases with
          | inserted _ hid heq => exact ⟨rfl, hid, congrArg Database.shots heq⟩
      | resolving job hcall =>
          rename_i call₁ call₂ stores
          cases call₂ <;> exact absurd hlooking (by simp [Call.looking, Ingestion.afterResolve])
      | _ => exact absurd hlooking (by simp [Call.looking])
  | processFail hfail =>
      obtain ⟨job, rfl⟩ := ProcessState.fail_cases hfail
      exact absurd hlooking (by simp [Call.looking])
  | _ => exact absurd hlooking (by simp [Call.looking])

/-- Rows stay, under their ids. -/
theorem ShotsEffect.stored (h : ShotsEffect w w' call call') {x : String}
    (hx : ∃ row ∈ w.db.shots, row.canonical_shot_id = x) :
    ∃ row ∈ w'.db.shots, row.canonical_shot_id = x := by
  obtain ⟨row, hrow, rfl⟩ := hx
  cases h with
  | frame hshots => exact ⟨row, hshots ▸ hrow, rfl⟩
  | insert job haccepted hkey hid hshots =>
      rw [hshots]
      exact ⟨row, List.mem_append_left _ hrow, rfl⟩
  | flag job shot id origin hshots =>
      rw [hshots]
      refine ⟨_, List.mem_map_of_mem hrow, ?_⟩
      split <;> rfl
  | backfill pair user identity hshots =>
      rw [hshots]
      refine ⟨_, List.mem_map_of_mem hrow, ?_⟩
      split <;> rfl

theorem RowOf.step (h : ShotsEffect w w' call call') {shot : NormalisedShot}
    (hrow : RowOf w.db shot) : RowOf w'.db shot := by
  refine ⟨h.stored hrow.stored, ?_⟩
  intro row hmem hid
  cases h with
  | frame hshots => exact hrow.columns row (hshots ▸ hmem) hid
  | insert job haccepted hkey hfresh hshots =>
      rw [hshots, List.mem_append, List.mem_singleton] at hmem
      obtain hmem | rfl := hmem
      · exact hrow.columns row hmem hid
      · obtain ⟨old, hold, heq⟩ := hrow.stored
        exact absurd (heq.trans hid.symm) (hfresh old hold)
  | flag job other id origin hshots =>
      rw [hshots] at hmem
      obtain ⟨old, hold, rfl⟩ := List.mem_map.mp hmem
      -- The flag sets the origin of a row and nothing else.
      split at hid
      · rename_i hflag
        rw [if_pos hflag, hrow.columns old hold hid]
      · rename_i hflag
        rw [if_neg hflag]
        exact hrow.columns old hold hid
  | backfill pair user identity hshots =>
      rw [hshots] at hmem
      obtain ⟨old, hold, rfl⟩ := List.mem_map.mp hmem
      split at hid
      · rename_i hmatch
        rw [if_pos hmatch, hrow.columns old hold hid]
      · rename_i hmatch
        rw [if_neg hmatch]
        exact hrow.columns old hold hid

/-- The row of a shot is found as the shot is. -/
theorem RowOf.canFind {db : Database} {sha256 : String → String} {shot : ShotWithoutPayload}
    {inserted row : NormalisedShot} (h : RowOf db inserted) (hrow : row ∈ db.shots)
    (hid : row.canonical_shot_id = inserted.canonical_shot_id)
    (hfind : CanFind sha256 shot row.toShotWithoutPayload) :
    CanFind sha256 shot inserted.toShotWithoutPayload := by
  rw [h.columns row hrow hid] at hfind
  exact ⟨hfind.vendor, hfind.vendor_user_id, hfind.content_hash, hfind.canonical_shot_id,
    hfind.lower, hfind.upper⟩

/-! ### Runs -/

section

variable {i : ℕ}

/-- The configuration after a step of a call. -/
def afterStep (c : Config) (i : ℕ) (w' : World) (call' : Call) : Config :=
  ⟨w', Function.update c.threads i (some call')⟩

/-- An edge there is after a step was there before, or the call has just chosen it. -/
theorem chosen_before (hinv : LinkInv c) (hi : c.threads i = some call)
    (hstep : Service.step deps c.shared call label = some (w', call')) {x y : String}
    (hedge : Chosen (afterStep c i w' call') x y) : Chosen c x y ∨ call'.chosen = some (x, y) := by
  rcases hedge with hlink | ⟨j, other, hj, hother⟩
  · rcases step_links hstep (hinv.unflagged i call · hi) hlink with h | h
    · exact .inl (.inl h)
    · exact .inl (.inr ⟨i, call, hi, h⟩)
  · obtain ⟨_, rfl⟩ | ⟨_, hj⟩ := Program.update_cases hj
    · exact .inr hother
    · exact .inl (.inr ⟨j, other, hj, hother⟩)

/-- The edge a call has just chosen starts at the shot it was looking up for,
and ends at a row that the query can find. -/
theorem chosen_new (hi : c.threads i = some call)
    (hstep : Service.step deps c.shared call label = some (w', call')) {x y : String}
    (hchosen : call'.chosen = some (x, y)) :
    ∃ shot k, label = .ok k ∧ call.looking = some shot ∧ shot.canonical_shot_id = x ∧
      ∃ row ∈ c.shared.db.shots, row.canonical_shot_id = y ∧
        CanFind deps.sha256 shot.toShotWithoutPayload row.toShotWithoutPayload := by
  obtain ⟨job, shot, id, k, origins, origin, rfl, rfl, horigins, horigin, rfl, rfl⟩ :=
    step_choose hstep hchosen
  obtain ⟨hmem, hfind⟩ := originCandidates_mem horigins (List.mem_of_getElem? horigin)
  exact ⟨shot, k, rfl, rfl, rfl, origin, hmem, rfl, hfind⟩

/-- The step of a call, on the graph of chosen origins: no new edge, or one from
a shot that nothing leads to. -/
theorem acyclic_step (hinv : LinkInv c) (hi : c.threads i = some call)
    (hstep : Service.step deps c.shared call label = some (w', call')) :
    Acyclic (Chosen (afterStep c i w' call')) := by
  cases hchosen : call'.chosen with
  | none =>
      refine hinv.acyclic.mono fun x y hedge => (chosen_before hinv hi hstep hedge).resolve_right ?_
      rw [hchosen]
      simp
  | some edge =>
      obtain ⟨x, y⟩ := edge
      obtain ⟨shot, k, rfl, hlooking, rfl, row, hrow, rfl, hfind⟩ := chosen_new hi hstep hchosen
      have hsource := (hinv.looking i call shot hi hlooking).2
      refine (hinv.acyclic.insert (a := shot.canonical_shot_id) (b := row.canonical_shot_id)
        fun hpath => ?_).mono fun u v hedge => ?_
      · -- The last edge of a path back would lead to the shot itself.
        obtain heq | ⟨u, _, hedge⟩ := hpath.cases_tail
        · exact hfind.canonical_shot_id heq.symm
        · exact hsource u hedge
      · refine (chosen_before hinv hi hstep hedge).imp_right fun h => ?_
        obtain ⟨rfl, rfl⟩ := Prod.mk.inj (Option.some.inj (hchosen.symm.trans h))
        exact ⟨rfl, rfl⟩

theorem origins_step (hinv : LinkInv c) (hi : c.threads i = some call)
    (hstep : Service.step deps c.shared call label = some (w', call')) {x y : String}
    (hedge : Chosen (afterStep c i w' call') x y) :
    ∃ row ∈ w'.db.shots, row.canonical_shot_id = y := by
  refine (step_shotsEffect hstep).stored ?_
  obtain hold | hnew := chosen_before hinv hi hstep hedge
  · exact hinv.origins x y hold
  · obtain ⟨_, _, _, _, _, row, hrow, hid, _⟩ := chosen_new hi hstep hnew
    exact ⟨row, hrow, hid⟩

/-- A shot that is still to be looked up for stays nobody's origin. -/
theorem looking_step (hinv : LinkInv c) (hi : c.threads i = some call)
    (hguard : LooksUpApart deps.sha256 c (.step i label))
    (hstep : Service.step deps c.shared call label = some (w', call')) {j : ℕ} {other : Call}
    {shot : NormalisedShot} (hj : (afterStep c i w' call').threads j = some other)
    (hother : other.looking = some shot) :
    RowOf w'.db shot ∧ ∀ a, ¬ Chosen (afterStep c i w' call') a shot.canonical_shot_id := by
  obtain ⟨rfl, rfl⟩ | ⟨hji, hj⟩ := Program.update_cases hj
  · -- The shot is new, and all origins are stored.
    obtain ⟨hnone, hfresh, hshots⟩ := step_looking hstep hother
    refine ⟨⟨⟨shot, by rw [hshots]; simp, rfl⟩, fun row hrow hid => ?_⟩, fun a hedge => ?_⟩
    · rw [hshots, List.mem_append, List.mem_singleton] at hrow
      obtain hrow | rfl := hrow
      · exact absurd hid (hfresh row hrow)
      · rfl
    · obtain hold | hnew := chosen_before hinv hi hstep hedge
      · obtain ⟨row, hrow, hid⟩ := hinv.origins a _ hold
        exact hfresh row hrow hid
      · exact absurd (hnone.symm.trans hnew) (by simp)
  · obtain ⟨hrowOf, hsource⟩ := hinv.looking j other shot hj hother
    refine ⟨hrowOf.step (step_shotsEffect hstep), fun a hedge => ?_⟩
    obtain hold | hnew := chosen_before hinv hi hstep hedge
    · exact hsource a hold
    · obtain ⟨finder, k, rfl, hfinder, _, row, hrow, hid, hfind⟩ := chosen_new hi hstep hnew
      exact hguard call finder hi hfinder j other shot hji hj hother
        (hrowOf.canFind hrow hid hfind)

end

theorem StartsParsedJobs.initial {sha256 : String → String} {i : ℕ}
    (h : StartsParsedJobs sha256 (.spawn i call)) : call.Initial := by
  cases call with
  | process s =>
      obtain ⟨job, rfl, _⟩ := h
      exact .process job
  | _ => exact h

theorem Call.Initial.looking (h : call.Initial) : call.looking = none := by
  cases h with
  | process job =>
      rw [Ingestion.process]
      split <;> rfl
  | _ => rfl

/-- A call that starts has chosen nothing, and its shot is not flagged. -/
theorem StartsParsedJobs.unflagged {sha256 : String → String} {i : ℕ}
    (h : StartsParsedJobs sha256 (.spawn i call)) :
    call.chosen = none ∧ ∀ shot, call.pendingShot = some shot → shot.duplicate_of = none := by
  cases call with
  | process s =>
      obtain ⟨job, rfl, hparsed⟩ := h
      by_cases hskew : hasExcessiveClockSkew job.normalisedShot.captured_at_utc job.receivedAtUtc
      · simp [Call.chosen, Call.pendingShot, Ingestion.process, hskew]
      · simpa [Call.chosen, Call.pendingShot, Ingestion.process, hskew] using
          hparsed.fresh.duplicate_of
  | _ => simp [Call.chosen, Call.pendingShot]

theorem LinkInv.spawn {i : ℕ} (hinv : LinkInv c)
    (hstart : StartsParsedJobs deps.sha256 (.spawn i call)) :
    LinkInv { c with threads := Function.update c.threads i (some call) } := by
  obtain ⟨hchosen, hunflagged⟩ := hstart.unflagged
  have hold {x y : String}
      (hedge : Chosen { c with threads := Function.update c.threads i (some call) } x y) :
      Chosen c x y := by
    refine hedge.imp_right ?_
    rintro ⟨j, other, hj, hother⟩
    obtain ⟨_, rfl⟩ | ⟨_, hj⟩ := Program.update_cases hj
    · exact absurd (hchosen.symm.trans hother) (by simp)
    · exact ⟨j, other, hj, hother⟩
  refine ⟨hinv.acyclic.mono fun x y => hold, fun a b hedge => hinv.origins a b (hold hedge),
    fun j other shot hj hshot => ?_, fun j other shot hj hlooking => ?_⟩
  · obtain ⟨_, rfl⟩ | ⟨_, hj⟩ := Program.update_cases hj
    · exact hunflagged shot hshot
    · exact hinv.unflagged j other shot hj hshot
  · obtain ⟨_, rfl⟩ | ⟨_, hj⟩ := Program.update_cases hj
    · exact absurd hlooking (by simp [hstart.initial.looking])
    · obtain ⟨hrow, hsource⟩ := hinv.looking j other shot hj hlooking
      exact ⟨hrow, fun a hedge => hsource a (hold hedge)⟩

theorem LinkInv.step (hinv : LinkInv c) (hguard : LinkGuard deps c a)
    (hexec : (program deps).exec c a = some c') : LinkInv c' := by
  obtain ⟨hstart, hapart⟩ := hguard
  obtain ⟨i, call, rfl, hnone, rfl⟩ | ⟨i, label, call, w', call', rfl, hi, hstep, rfl⟩ |
    ⟨x, w', rfl, hevent, rfl⟩ := Program.exec_cases hexec
  · exact hinv.spawn hstart
  · refine ⟨acyclic_step hinv hi hstep, fun x y => origins_step hinv hi hstep,
      fun j other shot hj hshot => ?_, fun j other shot => looking_step hinv hi hapart hstep⟩
    obtain ⟨_, rfl⟩ | ⟨_, hj⟩ := Program.update_cases hj
    · obtain ⟨before, c₁, hbefore, rfl⟩ := step_pendingShot hstep hshot
      exact hinv.unflagged i call before hi hbefore
    · exact hinv.unflagged j other shot hj hshot
  · have hshots := (event_same hevent).shots
    have hold {x y : String} (hedge : Chosen { c with shared := w' } x y) : Chosen c x y :=
      hedge.imp_left (links_congr hshots).mp
    refine ⟨hinv.acyclic.mono fun x y => hold, fun a b hedge => ?_, hinv.unflagged,
      fun j other shot hj hlooking => ?_⟩
    · rw [hshots]
      exact hinv.origins a b (hold hedge)
    · obtain ⟨hrow, hsource⟩ := hinv.looking j other shot hj hlooking
      exact ⟨⟨hshots ▸ hrow.stored, hshots ▸ hrow.columns⟩, fun a hedge => hsource a (hold hedge)⟩

theorem linkInv_of_reach (h : (linkSystem deps).Reach (LinkGuard deps) c) : LinkInv c := by
  refine h.invariant (fun c₀ h₀ => ?_) fun c a c' hinv hguard hexec => hinv.step hguard hexec
  obtain ⟨⟨hacyclic, hstored⟩, hidle⟩ := h₀
  have hnone {i : ℕ} {call : Call} : c₀.threads i ≠ some call := fun hi =>
    absurd ((hidle i).symm.trans hi) (by simp)
  have hlinks {x y : String} (hedge : Chosen c₀ x y) : Links c₀.shared.db x y :=
    hedge.resolve_right fun ⟨i, call, hi, _⟩ => hnone hi
  exact ⟨hacyclic.mono fun x y => hlinks, fun a b hedge => hstored a b (hlinks hedge),
    fun i call shot hi => absurd hi hnone, fun i call shot hi => absurd hi hnone⟩

/-- The duplicate links have no cycle, and among any rows that are flagged
against one another one is visible. -/
theorem links_acyclic (hreach : (linkSystem deps).Reach (LinkGuard deps) c) :
    Acyclic (Links c.shared.db) ∧
    ∀ rows : List NormalisedShot, rows ≠ [] → (∀ row ∈ rows, row ∈ c.shared.db.shots) →
      (∀ row ∈ rows, ∀ origin ∈ row.duplicate_of,
        ∃ other ∈ rows, other.canonical_shot_id = origin) →
      ∃ row ∈ rows, VisibleByDefault row := by
  have hacyclic : Acyclic (Links c.shared.db) :=
    (linkInv_of_reach hreach).acyclic.mono fun x y => .inl
  refine ⟨hacyclic, fun rows hne hstored hclosed => ?_⟩
  let ids : Set String := {id | ∃ row ∈ rows, row.canonical_shot_id = id}
  have hfinite : ids.Finite := (rows.map (·.canonical_shot_id)).finite_toSet.subset
    fun id ⟨row, hrow, hid⟩ => List.mem_map.mpr ⟨row, hrow, hid⟩
  obtain ⟨first, hfirst⟩ := List.exists_mem_of_ne_nil rows hne
  obtain ⟨id, ⟨row, hrow, rfl⟩, hsink⟩ := hacyclic.exists_sink hfinite ⟨_, first, hfirst, rfl⟩
  refine ⟨row, hrow, ?_⟩
  show row.duplicate_of = none
  rw [Option.eq_none_iff_forall_ne_some]
  intro origin hdup
  obtain ⟨other, hother, rfl⟩ := hclosed row hrow origin hdup
  exact hsink _ ⟨other, hother, rfl⟩ ⟨row, hstored row hrow, rfl, hdup⟩

/-! ### Two shots of one burst -/

def driveDeps : Deps := ⟨driveSha256, fun _ => none⟩

def driveJob (ulid : String) (payload : TrackproPayload) : ShotJob where
  vendor := .trackpro
  normalisedShot := driveShot driveSha256 ulid payload 1710498606000
  correlationId := "4c7f2a44-6a51-4b8e-9f0c-3d6a1f6f2b10"
  receivedAtUtc := 1710498606000

theorem startsParsedJobs_drive {i : ℕ} {ulid : String} {payload : TrackproPayload} :
    StartsParsedJobs driveSha256 (.spawn i (.process (process (driveJob ulid payload)))) :=
  ⟨driveJob ulid payload, rfl, parserProduced_driveShot⟩

theorem links_of_map {db : Database} {a b : String}
    (h : (a, some b) ∈ db.shots.map fun row => (row.canonical_shot_id, row.duplicate_of)) :
    Links db a b := by
  obtain ⟨row, hrow, heq⟩ := List.mem_map.mp h
  exact ⟨row, hrow, (Prod.mk.inj heq).1, (Prod.mk.inj heq).2⟩

theorem linkSystem_init {deps : Deps} : (linkSystem deps).init noCalls := by
  have hnone {x y : String} : ¬ Links noCalls.shared.db x y := fun ⟨row, hrow, _⟩ =>
    absurd hrow (by simp [noCalls, freshWorld, Database.empty])
  refine ⟨⟨fun a ha => ?_, fun a b hlink => absurd hlink hnone⟩, fun _ => rfl⟩
  obtain ⟨b, hlink, _⟩ := TransGen.head'_iff.mp ha
  exact hnone hlink

/-- Both attempts insert, both look up, both flag. -/
def burstActions : List Action :=
  [.spawn 0 (.process (process (driveJob firstId firstDrive))),
    .spawn 1 (.process (process (driveJob secondId secondDrive))),
    .step 0 (.ok 0), .step 0 (.ok 0), .step 0 (.ok 0), .step 0 (.ok 0),
    .step 1 (.ok 0), .step 1 (.ok 0),
    .step 0 (.ok 0), .step 1 (.ok 0), .step 0 (.ok 0), .step 1 (.ok 0)]

/-- Without the condition two shots of one burst are flagged as duplicates of each other. -/
theorem links_not_acyclic :
    ¬ ∀ (deps : Deps) (c : Config),
      (linkSystem deps).Reach (fun _ a => StartsParsedJobs deps.sha256 a) c →
      Acyclic (Links c.shared.db) := by
  intro h
  have hstarts : ∀ a ∈ burstActions, StartsParsedJobs driveSha256 a := by
    simp only [burstActions, List.forall_mem_cons]
    refine ⟨startsParsedJobs_drive, startsParsedJobs_drive, ?_⟩
    simp [StartsParsedJobs]
  let c := ((linkSystem driveDeps).execAll noCalls burstActions).getD noCalls
  obtain ⟨hsome, hfirst, hsecond⟩ :
      ((linkSystem driveDeps).execAll noCalls burstActions).isSome = true ∧
        (firstId, some secondId) ∈ c.shared.db.shots.map (fun row =>
          (row.canonical_shot_id, row.duplicate_of)) ∧
        (secondId, some firstId) ∈ c.shared.db.shots.map (fun row =>
          (row.canonical_shot_id, row.duplicate_of)) := by
    decide +kernel
  have hreach : (linkSystem driveDeps).Reach (fun _ a => StartsParsedJobs driveSha256 a) c := by
    exact ⟨noCalls, burstActions, linkSystem_init,
      System.run_of_isSome (fun a ha _ => hstarts a ha) hsome⟩
  exact h driveDeps c hreach firstId
    (.tail (.single (links_of_map hfirst)) (links_of_map hsecond))

/-- The first drive is stored. -/
def afterFirst : Config :=
  { noCalls with shared := { freshWorld with
      db := { freshWorld.db with shots := [(driveJob firstId firstDrive).normalisedShot] } } }

/-- Two attempts beside each other; the second inserts its drive when the first has looked. -/
def apartActions : List Action :=
  [.spawn 0 (.process (process (driveJob firstId firstDrive))),
    .spawn 1 (.process (process (driveJob secondId secondDrive))),
    .step 0 (.ok 0), .step 0 (.ok 0), .step 0 (.ok 0), .step 1 (.ok 0), .step 0 (.ok 0),
    .step 0 (.ok 0), .step 1 (.ok 0), .step 1 (.ok 0), .step 1 (.ok 0)]

def afterBoth : Config := ((linkSystem driveDeps).execAll noCalls apartActions).getD noCalls

theorem apartActions_evaluate :
    ((linkSystem driveDeps).execAll noCalls apartActions).isSome = true ∧
      (∀ k < apartActions.length, ((linkSystem driveDeps).execAll noCalls (apartActions.take k)).map
        (fun d => ((d.threads 0).bind Call.looking).isNone ||
          ((d.threads 1).bind Call.looking).isNone) = some true) ∧
      (secondId, some firstId) ∈ afterBoth.shared.db.shots.map fun row =>
        (row.canonical_shot_id, row.duplicate_of) := by
  decide +kernel

/-- At no point of the run are both attempts between insert and look-up. -/
theorem apartActions_apart {k : ℕ} {a : Action} {d : Config} (ha : apartActions[k]? = some a)
    (hd : (linkSystem driveDeps).execAll noCalls (apartActions.take k) = some d) :
    LooksUpApart driveSha256 d a := by
  obtain ⟨hk, _⟩ := List.getElem?_eq_some_iff.mp ha
  have hone := apartActions_evaluate.2.1 k hk
  rw [hd, Option.map_some, Option.some_inj, Bool.or_eq_true] at hone
  have hnone (j : ℕ) : d.threads (j + 2) = none :=
    Program.threads_of_execAll hd rfl fun p hp => by
      have hspawn := List.mem_of_mem_take hp
      simp [apartActions] at hspawn
  have hlooks {j : ℕ} {call : Call} {shot : NormalisedShot} (hj : d.threads j = some call)
      (hlooking : call.looking = some shot) : ((d.threads j).bind Call.looking).isNone = false := by
    rw [hj, Option.bind_some, hlooking]
    rfl
  cases a with
  | step i label =>
      cases label with
      | ok n =>
          intro call shot hi hcall j other inserted hji hj hother _
          have h₀ := hlooks hi hcall
          have h₁ := hlooks hj hother
          obtain _ | _ | i := i
          · obtain _ | _ | j := j
            · exact hji rfl
            · simp [h₀, h₁] at hone
            · exact absurd ((hnone j).symm.trans hj) (by simp)
          · obtain _ | _ | j := j
            · simp [h₀, h₁] at hone
            · exact hji rfl
            · exact absurd ((hnone j).symm.trans hj) (by simp)
          · exact absurd ((hnone i).symm.trans hi) (by simp)
      | _ => trivial
  | _ => trivial

/-- The second drive is flagged as a duplicate of the first, and that is the only link. -/
theorem links_acyclic_afterBoth :
    Links afterBoth.shared.db secondId firstId ∧ Acyclic (Links afterBoth.shared.db) := by
  have hstarts : ∀ a ∈ apartActions, StartsParsedJobs driveSha256 a := by
    simp only [apartActions, List.forall_mem_cons]
    refine ⟨startsParsedJobs_drive, startsParsedJobs_drive, ?_⟩
    simp [StartsParsedJobs]
  have hreach : (linkSystem driveDeps).Reach (LinkGuard driveDeps) afterBoth :=
    ⟨noCalls, apartActions, linkSystem_init, System.run_of_guards apartActions_evaluate.1
      fun k a d ha hd => ⟨hstarts a (List.mem_of_getElem? ha), apartActions_apart ha hd⟩⟩
  exact ⟨links_of_map apartActions_evaluate.2.2, (links_acyclic hreach).1⟩

end PureplayIngest
