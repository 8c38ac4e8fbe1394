import PureplayIngest.Ingestion.AppendOnly
import PureplayIngest.Shots.Pagination

/-!
The pages of a listing while the service is at work.

From one request of a walk to the next, shots are inserted, flagged as near
duplicates, and given a canonical user by a link. So a row that is asked for at
one request may not be at another. But what a row is ordered by is never
written again, and every state the service reaches has rows with ids of their
own, captured at whole milliseconds.
-/

namespace PureplayIngest.Shots

open Shared Shared.Domain Shared.Kysely Ingestion Outbox Lib

/-! ### The states of the service -/

def ulidCharacters : String := "0123456789ABCDEFGHJKMNPQRSTVWXYZ"

/-- What `ulid()` gives. -/
def IsUlid (id : String) : Prop :=
  id.length = 26 ∧ id.toList.all ulidCharacters.toList.contains = true

instance (id : String) : Decidable (IsUlid id) := inferInstanceAs (Decidable (_ ∧ _))

/-- Calls and cycles start at their beginning, and jobs come from the parsers,
which give each shot a ULID. -/
def StartsWithUlids (sha256 : String → String) (a : Outbox.Action) : Prop :=
  StartsParsed sha256 a ∧ ∀ i call shot, a = .spawn i (.service call) →
    call.pendingShot = some shot → IsUlid shot.canonical_shot_id

def servedSystem (deps : Deps) : System Outbox.Config Outbox.Action :=
  (Outbox.program deps).system fun w =>
    (w.db.shots.map fun row => row.canonical_shot_id).Nodup ∧
      ∀ row ∈ w.db.shots, IsUlid row.canonical_shot_id

/-- A state the service reaches. -/
abbrev Served (deps : Deps) : Type :=
  { c : Outbox.Config // (servedSystem deps).Reach (fun _ => StartsWithUlids deps.sha256) c }

/-- What holds in these states. -/
structure ServedInv (c : Outbox.Config) : Prop where
  flags : FlagInv c
  stored : ∀ row ∈ c.shared.db.shots, IsUlid row.canonical_shot_id
  pending : ∀ i call shot, c.threads i = some (.service call) → call.pendingShot = some shot →
    IsUlid shot.canonical_shot_id

section Invariant

variable {deps : Deps} {c c' : Outbox.Config} {i : ℕ} {call call' : Call} {world : World}
  {a : Outbox.Action}

/-- The ids of the table after a step of a call are those of before and the one
of the shot that the call was to insert. -/
theorem ids_afterCall (h : TablesEffect c.shared.toWorld world call call') {row : NormalisedShot}
    (hrow : row ∈ world.db.shots) :
    (∃ old ∈ c.shared.db.shots, old.canonical_shot_id = row.canonical_shot_id) ∨
      call.pendingShot = some row := by
  have hmapped (f : NormalisedShot → NormalisedShot)
      (hf : ∀ row, (f row).canonical_shot_id = row.canonical_shot_id)
      (hrow : row ∈ c.shared.db.shots.map f) :
      ∃ old ∈ c.shared.db.shots, old.canonical_shot_id = row.canonical_shot_id := by
    obtain ⟨old, hold, rfl⟩ := List.mem_map.mp hrow
    exact ⟨old, hold, (hf old).symm⟩
  cases h with
  | frame hsame => exact .inl ⟨row, hsame.shots ▸ hrow, rfl⟩
  | insert job haccepted hkey hid hdb =>
      rw [hdb] at hrow
      obtain hrow | hrow := List.mem_append.mp hrow
      · exact .inl ⟨row, hrow, rfl⟩
      · exact .inr (congrArg some (List.mem_singleton.mp hrow).symm)
  | flag job shot id origin hdb =>
      rw [hdb] at hrow
      exact .inl (hmapped _ (fun row => by split <;> rfl) hrow)
  | backfill pair user identity hdb =>
      rw [hdb] at hrow
      exact .inl (hmapped _ (fun row => by split <;> rfl) hrow)

theorem ServedInv.step (hinv : ServedInv c) (hstart : StartsWithUlids deps.sha256 a)
    (hexec : (Outbox.program deps).exec c a = some c') : ServedInv c' := by
  have hflags := hinv.flags.step hstart.1 hexec
  obtain ⟨i, p, rfl, _, rfl⟩ | ⟨i, e, p, w', q, rfl, hi, hstep, rfl⟩ | ⟨x, w', rfl, hevent, rfl⟩ :=
    Program.exec_cases hexec
  · refine ⟨hflags, hinv.stored, fun j call shot hj hshot => ?_⟩
    obtain ⟨rfl, rfl⟩ | ⟨_, hj⟩ := Program.update_cases hj
    · exact hstart.2 j call shot rfl hshot
    · exact hinv.pending j call shot hj hshot
  · cases Outbox.step_cases hstep with
    | @service call call' label world hservice =>
        refine ⟨hflags, fun row hrow => ?_, fun j other shot hj hshot => ?_⟩
        · obtain ⟨old, hold, hid⟩ | hpending := ids_afterCall (step_tablesEffect hservice) hrow
          · exact hid ▸ hinv.stored old hold
          · exact hinv.pending i call row hi hpending
        · obtain ⟨rfl, rfl⟩ | ⟨_, hj⟩ := afterCall_cases hj
          · obtain ⟨before, user, hbefore, rfl⟩ := step_pendingShot hservice hshot
            exact hinv.pending j call before hi hbefore
          · exact hinv.pending j other shot hj hshot
    | publisher hpublisher =>
        exact ⟨hflags, hpublisher.tables.1 ▸ hinv.stored,
          fun j call shot hj => hinv.pending j call shot (afterCycleStep_cases hj)⟩
  · obtain ⟨world, hworld, rfl⟩ := Option.map_eq_some_iff.mp hevent
    exact ⟨hflags, (event_same hworld).shots ▸ hinv.stored, hinv.pending⟩

theorem servedInv_of_reach
    (h : (servedSystem deps).Reach (fun _ => StartsWithUlids deps.sha256) c) : ServedInv c := by
  refine h.invariant (fun c₀ h₀ => ?_) fun c a c' hinv hstart hexec => hinv.step hstart hexec
  obtain ⟨⟨hids, hulids⟩, hidle⟩ := h₀
  have hreach : (shotSystem deps).Reach (fun _ => StartsParsed deps.sha256) c₀ :=
    .init ⟨hids, hidle⟩
  refine ⟨flagInv_of_reach hreach, hulids, fun i call shot hi => ?_⟩
  exact absurd ((hidle i).symm.trans hi) (by simp)

end Invariant

/-! ### The table a request reads -/

theorem millisecond_pos : 0 < 1000 := by decide

/-- A row as it is read; the instants of JavaScript are in whole milliseconds. -/
def storedShot (row : NormalisedShot) : StoredShot :=
  { row with microseconds := ⟨0, millisecond_pos⟩ }

namespace Served

variable {deps : Deps} {s s' : Served deps}

def shots (s : Served deps) : List StoredShot := s.val.shared.db.shots.map storedShot

theorem ids_nodup (s : Served deps) : (s.shots.map fun row => row.canonical_shot_id).Nodup := by
  have hids := (servedInv_of_reach s.property).flags.ids
  rwa [shots, List.map_map]

theorem isUlid (s : Served deps) : ∀ row ∈ s.shots, IsUlid row.canonical_shot_id := by
  intro row hrow
  obtain ⟨row, hstored, rfl⟩ := List.mem_map.mp hrow
  exact (servedInv_of_reach s.property).stored row hstored

theorem ids_ne_empty (s : Served deps) : ∀ row ∈ s.shots, row.canonical_shot_id ≠ "" := by
  intro row hrow hempty
  have hlength := (s.isUlid row hrow).1
  rw [hempty] at hlength
  exact absurd hlength (by decide)

theorem ids_characters (s : Served deps) :
    ∀ row ∈ s.shots, '\x00' ∉ row.canonical_shot_id.toList :=
  fun row hrow hnul => absurd (List.all_eq_true.mp (s.isUlid row hrow).2 _ hnul) (by decide)

def table (s : Served deps) : ShotsTable where
  rows := s.shots
  primaryKey := s.ids_nodup
  ids_ne_empty := s.ids_ne_empty
  ids_characters := s.ids_characters

theorem millisecondPrecision (s : Served deps) : s.table.MillisecondPrecision := by
  intro row hrow
  obtain ⟨row, _, rfl⟩ := List.mem_map.mp hrow
  rfl

/-- The service gets from one state to the other. -/
def Later (s s' : Served deps) : Prop :=
  ∃ as, (servedSystem deps).Run (fun _ => StartsWithUlids deps.sha256) s.val as s'.val

/-- A row keeps its place in the order of the listing. -/
theorem Later.orderKey_eq {κ : Type} (pg : Postgres κ) (h : s.Later s') {row row' : StoredShot}
    (hrow : row ∈ s.shots) (hrow' : row' ∈ s'.shots)
    (hid : row'.canonical_shot_id = row.canonical_shot_id) :
    orderKey pg row' = orderKey pg row := by
  obtain ⟨as, hrun⟩ := h
  obtain ⟨row, hstored, rfl⟩ := List.mem_map.mp hrow
  obtain ⟨row', hstored', rfl⟩ := List.mem_map.mp hrow'
  have hexec : (servedSystem deps).exec = (shotSystem deps).exec := rfl
  have hrun' : (shotSystem deps).Run (fun _ => StartsParsed deps.sha256) s.val as s'.val :=
    .of_exec hexec (hrun.mono fun _ _ hstart => hstart.1)
  obtain ⟨kept, hkept⟩ := kept_run hrun' (servedInv_of_reach s.property).flags row hstored
  -- Ids are unique, so this is what has become of the row.
  obtain rfl := List.inj_on_of_nodup_map (servedInv_of_reach s'.property).flags.ids hstored'
    hkept.stored (hid.trans hkept.id_eq.symm)
  rw [orderKey, orderKey, hkept.columns]
  rfl

end Served

/-! ### The walk -/

section Walk

variable {κ : Type} [LinearOrder κ] {pg : Postgres κ} {parseDate : String → Option ℤ}
  {filter : ShotsFilter} {query : ShotsQuery} {n : ℕ} {deps : Deps}
  {requests : List (ℤ × Served deps)}

omit [LinearOrder κ] in
/-- Among the states of a walk, equal ids mean one place in the order. -/
theorem orderKey_eq_of_id (hlater : requests.Pairwise fun r r' => r.2.Later r'.2)
    {r r' : ℤ × Served deps} (hr : r ∈ requests) (hr' : r' ∈ requests) {row row' : StoredShot}
    (hrow : row ∈ r.2.shots) (hrow' : row' ∈ r'.2.shots)
    (hid : row'.canonical_shot_id = row.canonical_shot_id) :
    orderKey pg row' = orderKey pg row := by
  have : Std.Symm fun r r' : ℤ × Served deps => r.2.Later r'.2 ∨ r'.2.Later r.2 :=
    ⟨fun _ _ h => h.symm⟩
  have hcomparable := (hlater.imp fun h => Or.inl h : requests.Pairwise fun r r' =>
    r.2.Later r'.2 ∨ r'.2.Later r.2).forall_of_forall (fun r _ => .inl ⟨[], .nil _⟩) hr hr'
  obtain hlater | hlater := hcomparable
  · exact hlater.orderKey_eq pg hrow hrow' hid
  · exact (hlater.orderKey_eq pg hrow' hrow hid.symm).symm

omit [LinearOrder κ] in
theorem id_eq_of_orderKey (hpg : pg.Documented) {row row' : StoredShot}
    (h : orderKey pg row = orderKey pg row') : row.canonical_shot_id = row'.canonical_shot_id :=
  hpg.sortKey_injective (congrArg (fun key => (ofLex key).2) h)

theorem tables_millisecondPrecision (requests : List (ℤ × Served deps)) :
    ∀ request ∈ requests.map fun r => (r.1, r.2.table), request.2.MillisecondPrecision := by
  intro request hrequest
  obtain ⟨r, _, rfl⟩ := List.mem_map.mp hrequest
  exact r.2.millisecondPrecision

omit [LinearOrder κ] in
theorem keys_nodup (hpg : pg.Documented) (requests : List (ℤ × Served deps)) :
    ∀ rows ∈ requests.map fun r => ShotsTable.asked parseDate filter query (r.1, r.2.table),
      (rows.map (orderKey pg)).Nodup := by
  intro rows hrows
  obtain ⟨r, _, rfl⟩ := List.mem_map.mp hrows
  exact orderKey_nodup hpg r.2.table _

/-- A row that is asked for at every request is on one of the pages, as what it
was at one of them. -/
theorem exists_listed (hpg : pg.Documented) (hlater : requests.Pairwise fun r r' => r.2.Later r'.2)
    {walked : List (List StoredShot)}
    (hwalk : Keyset.Walk (orderKey pg) n none
      (requests.map fun r => ShotsTable.asked parseDate filter query (r.1, r.2.table)) walked)
    {id : String} (hid : ∀ r ∈ requests, ∃ row ∈ r.2.shots, row.canonical_shot_id = id ∧
      Asked parseDate r.1 filter query row) :
    ∃ row ∈ walked.flatten, row.canonical_shot_id = id := by
  cases requests with
  | nil => cases hwalk
  | cons r rest =>
      obtain ⟨row, hrow, rfl, _⟩ := hid r List.mem_cons_self
      have hthere : ∀ rows ∈ (r :: rest).map fun r =>
          ShotsTable.asked parseDate filter query (r.1, r.2.table),
          ∃ x ∈ rows, orderKey pg x = orderKey pg row := by
        intro rows hrows
        obtain ⟨r', hr', rfl⟩ := List.mem_map.mp hrows
        obtain ⟨row', hrow', hid', hasked⟩ := hid r' hr'
        exact ⟨row', ShotsTable.mem_asked.mpr ⟨hrow', hasked⟩,
          orderKey_eq_of_id hlater List.mem_cons_self hr' hrow hrow' hid'⟩
      obtain ⟨listed, hlisted, hkey⟩ := hwalk.mem_key (keys_nodup hpg _) hthere (by simp)
      exact ⟨listed, hlisted, id_eq_of_orderKey hpg hkey⟩

/-- What the pages of a listing give while the service is at work, each request
being answered in a state that the service comes to from that of the one before,
and in the window it has when it is made. The pages are in strictly descending
order and list no shot twice; what is on a page was there, and asked for, at the
request of the page; and every shot that is there and asked for at each of the
requests is listed. -/
theorem pages_while_serving (hpg : pg.Documented) (hlimit : pageLimit query.limit = .finite n)
    (hone : 1 ≤ n) (hlater : requests.Pairwise fun r r' => r.2.Later r'.2)
    {pages : List (List ShotWithoutPayload)}
    (hwalk : PageWalk pg parseDate filter query none
      (requests.map fun r => (r.1, r.2.table)) pages) :
    pages.flatten.Pairwise (After pg) ∧
      (pages.flatten.map fun shot => shot.canonical_shot_id).Nodup ∧
      List.Forall₂ (fun (r : ℤ × Served deps) page => ∀ shot ∈ page, ∃ row ∈ r.2.shots,
        Asked parseDate r.1 filter query row ∧ shot = row.toResponse) requests pages ∧
      ∀ id, (∀ r ∈ requests, ∃ row ∈ r.2.shots, row.canonical_shot_id = id ∧
          Asked parseDate r.1 filter query row) →
        id ∈ pages.flatten.map fun shot => shot.canonical_shot_id := by
  obtain ⟨walked, hkeyset, rfl⟩ :=
    hwalk.toWalk hlimit hone hpg (tables_millisecondPrecision requests) .start
  rw [List.map_map] at hkeyset
  have hpages : List.Forall₂ (fun (r : ℤ × Served deps) page => ∀ row ∈ page,
      row ∈ ShotsTable.asked parseDate filter query (r.1, r.2.table)) requests walked :=
    List.forall₂_map_left_iff.mp hkeyset.forall₂
  have hstored : ∀ row ∈ walked.flatten, ∃ r ∈ requests, row ∈ r.2.shots := by
    intro row hrow
    obtain ⟨rows, hrows, hmem⟩ := hkeyset.exists_table hrow
    obtain ⟨r, hr, rfl⟩ := List.mem_map.mp hrows
    exact ⟨r, hr, (ShotsTable.mem_asked.mp hmem).1⟩
  have horder := hkeyset.pairwise (keys_nodup hpg requests)
  have hflatten : (walked.map fun page => page.map StoredShot.toResponse).flatten =
      walked.flatten.map StoredShot.toResponse := List.map_flatten.symm
  rw [hflatten]
  refine ⟨?_, ?_, ?_, fun id hid => ?_⟩
  · refine List.pairwise_map.mpr (horder.imp_of_mem fun {a b} ha hb hlt => ?_)
    obtain ⟨r, _, ha⟩ := hstored a ha
    obtain ⟨r', _, hb⟩ := hstored b hb
    exact after_of_orderKey_lt (r.2.millisecondPrecision a ha) (r'.2.millisecondPrecision b hb) hlt
  · rw [List.map_map]
    refine List.pairwise_map.mpr (horder.imp_of_mem fun {a b} ha hb hlt hid => ?_)
    obtain ⟨r, hr, ha⟩ := hstored a ha
    obtain ⟨r', hr', hb⟩ := hstored b hb
    exact absurd (orderKey_eq_of_id hlater hr hr' ha hb hid.symm) hlt.ne
  · refine List.forall₂_map_right_iff.mpr (hpages.imp fun r page hpage shot hshot => ?_)
    obtain ⟨row, hrow, rfl⟩ := List.mem_map.mp hshot
    obtain ⟨hthere, hasked⟩ := ShotsTable.mem_asked.mp (hpage row hrow)
    exact ⟨row, hthere, hasked, rfl⟩
  · obtain ⟨row, hrow, rfl⟩ := exists_listed hpg hlater hkeyset hid
    exact List.mem_map_of_mem (List.mem_map_of_mem hrow)

end Walk

/-! ### A shot that is flagged between two requests -/

theorem startsWithUlids_drive {i : ℕ} {ulid : String} {payload : Webhooks.TrackproPayload}
    (hulid : IsUlid ulid) : StartsWithUlids Webhooks.driveSha256
      (.spawn i (.service (.process (process (driveJob ulid payload))))) := by
  refine ⟨startsParsedJobs_drive (i := i), fun j call shot heq hshot => ?_⟩
  cases heq
  by_cases hskew : hasExcessiveClockSkew (driveJob ulid payload).normalisedShot.captured_at_utc
      (driveJob ulid payload).receivedAtUtc
  · simp [Call.pendingShot, process, hskew] at hshot
  · simp only [Call.pendingShot, process, hskew] at hshot
    exact Option.some.inj hshot ▸ hulid

theorem reach_secondInserted : (servedSystem driveDeps).Reach
    (fun _ => StartsWithUlids driveDeps.sha256) secondInserted := by
  have hstarts : ∀ a ∈ insertSecondActions, StartsWithUlids driveDeps.sha256 a := by
    simp only [insertSecondActions, List.forall_mem_cons]
    refine ⟨startsWithUlids_drive (by decide), ?_⟩
    simp [StartsWithUlids, StartsParsed]
  have hrun : (servedSystem driveDeps).Run (fun _ => StartsWithUlids driveDeps.sha256) oneShot
      insertSecondActions secondInserted :=
    System.run_of_isSome (fun a ha _ => hstarts a ha) (by decide +kernel)
  exact ⟨oneShot, insertSecondActions, ⟨⟨by decide +kernel, by decide +kernel⟩, fun _ => rfl⟩, hrun⟩

/-- The second drive is found to be a near duplicate, and both are attributed. -/
theorem run_attributed : (servedSystem driveDeps).Run
    (fun _ => StartsWithUlids driveDeps.sha256) secondInserted attributeActions attributed := by
  have hstarts : ∀ a ∈ attributeActions, StartsWithUlids driveDeps.sha256 a := by
    simp only [attributeActions, List.forall_mem_cons]
    refine ⟨?_, ?_, ?_, ⟨.link _ _ _, fun i call shot heq hshot => ?_⟩, ?_⟩
    · simp [StartsWithUlids, StartsParsed]
    · simp [StartsWithUlids, StartsParsed]
    · simp [StartsWithUlids, StartsParsed]
    · cases heq
      exact absurd hshot (by simp [Call.pendingShot])
    · simp [StartsWithUlids, StartsParsed]
  exact System.run_of_isSome (fun a ha _ => hstarts a ha) (by decide +kernel)

theorem reach_attributed : (servedSystem driveDeps).Reach
    (fun _ => StartsWithUlids driveDeps.sha256) attributed :=
  reach_secondInserted.run run_attributed

/-- The requests of a walk, with the flag and the link between them. -/
def drivesRequests : List (ℤ × Served driveDeps) :=
  [(1710498610000, ⟨secondInserted, reach_secondInserted⟩),
    (1710498670000, ⟨attributed, reach_attributed⟩)]

def drivesFilter : ShotsFilter :=
  { canonical_user_id := none, vendor := some .trackpro, vendor_user_id := some "demo-player-1" }

/-- The last thirty days, in pages of one shot. -/
def drivesQuery : ShotsQuery :=
  { since := none, until_ := none, club := none, cursor := none, limit := some (.finite 1)
    include_near_duplicates := none }

theorem windowAt_drives : ∀ r ∈ drivesRequests, windowAt scanDate r.1 drivesQuery =
    some (r.1 - 2592000000, r.1) := by
  decide +kernel

theorem accepted_drives : ∀ r ∈ drivesRequests,
    Accepted Postgres.ofStrings drivesFilter drivesQuery (r.1 - 2592000000) r.1 := by
  have hstart : ∀ r ∈ drivesRequests,
      Postgres.ofStrings.timestamptz (.str (isoString (r.1 - 2592000000))) =
        some ((r.1 - 2592000000) * 1000) := by
    decide +kernel
  have hstop : ∀ r ∈ drivesRequests,
      Postgres.ofStrings.timestamptz (.str (isoString r.1)) = some (r.1 * 1000) := by
    decide +kernel
  have hbounds : ∀ r ∈ drivesRequests,
      minTimestamp ≤ r.1 - 2592000000 ∧ r.1 ≤ maxTimestamp := by
    decide
  exact fun r hr => ⟨hstart r hr, hstop r hr, hbounds r hr, rfl, rfl, rfl⟩

/-- The rows that the walk asks for, at each of its requests. -/
def drivesRows : List (List StoredShot) :=
  drivesRequests.map fun r =>
    ShotsTable.asked scanDate drivesFilter drivesQuery (r.1, r.2.table)

theorem more_drives : 1 < (Keyset.behind (orderKey Postgres.ofStrings) none
    (drivesRows.headD [])).length := by
  decide +kernel

theorem walk_drives : ∃ walked, Keyset.Walk (orderKey Postgres.ofStrings) 1 none drivesRows walked ∧
    (walked.map fun page => page.map fun row => (row.canonical_shot_id, row.canonical_user_id)) =
      [[(Webhooks.secondId, none)], [(Webhooks.firstId, some "golfer-1")]] :=
  ⟨_, .next more_drives (List.getLast?_eq_some_getLast (Keyset.page_ne_nil Nat.one_pos more_drives))
    (.last (by decide +kernel)), by decide +kernel⟩

theorem pageLimit_drives : pageLimit drivesQuery.limit = .finite (1 : ℕ) := by decide

/-- The second drive is on the first page, though it is flagged when the second
one is read; the first drive is on the second page, with its user. -/
theorem pages_while_serving_drives : ∃ pages,
    PageWalk Postgres.ofStrings scanDate drivesFilter drivesQuery none
      (drivesRequests.map fun r => (r.1, r.2.table)) pages ∧
      (pages.map fun page => page.map fun shot => (shot.canonical_shot_id, shot.canonical_user_id))
        = [[(Webhooks.secondId, none)], [(Webhooks.firstId, some "golfer-1")]] ∧
      Webhooks.firstId ∈ pages.flatten.map fun shot => shot.canonical_shot_id := by
  obtain ⟨walked, hkeyset, hlisted⟩ := walk_drives
  have haccepted : ∀ request ∈ drivesRequests.map fun r => (r.1, r.2.table), ∃ since until_,
      windowAt scanDate request.1 drivesQuery = some (since, until_) ∧
        Accepted Postgres.ofStrings drivesFilter drivesQuery since until_ := by
    intro request hrequest
    obtain ⟨r, hr, rfl⟩ := List.mem_map.mp hrequest
    exact ⟨_, _, windowAt_drives r hr, accepted_drives r hr⟩
  have hwalk : PageWalk Postgres.ofStrings scanDate drivesFilter drivesQuery none
      (drivesRequests.map fun r => (r.1, r.2.table))
      (walked.map fun page => page.map StoredShot.toResponse) := by
    refine .of_keyset pageLimit_drives Postgres.documented_ofStrings haccepted
      (tables_millisecondPrecision drivesRequests) (by decide) ?_ .start
    rw [List.map_map]
    exact hkeyset
  have hlater : drivesRequests.Pairwise fun r r' => r.2.Later r'.2 :=
    .cons (List.forall_mem_singleton.mpr ⟨_, run_attributed⟩) (List.pairwise_singleton _ _)
  refine ⟨_, hwalk, ?_, (pages_while_serving Postgres.documented_ofStrings pageLimit_drives le_rfl
    hlater hwalk).2.2.2 Webhooks.firstId ?_⟩
  · rw [List.map_map, ← hlisted]
    refine List.map_congr_left fun page _ => ?_
    rw [Function.comp_apply, List.map_map]
    rfl
  · decide +kernel

end PureplayIngest.Shots
