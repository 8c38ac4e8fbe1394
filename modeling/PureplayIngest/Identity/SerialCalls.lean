import PureplayIngest.Identity.LinkTransactions

/-!
The calls of `linkIdentity` and `unlinkIdentity` have an order.

However their statements are interleaved and whichever of them are rolled back, the
calls that have committed have done what their transactions do one after the other,
each as one step. The lock on the row of a pair is what makes it so: from its write
to its commit no other transaction is about the pair.
-/

namespace PureplayIngest.Identity

open Shared.Domain Shared.Kysely Lib

namespace IdentityCall

/-- What the call has made of the pair. -/
def result (call : IdentityCall) : Option String :=
  match call.change with
  | .link => some call.canonicalUserId
  | .unlink => none

variable {call : IdentityCall} {db db' : Database}

theorem transaction_unique (hunique : UniquePairs db) (h : call.transaction db = some db') :
    UniquePairs db' ∧ mapping db' = Function.update (mapping db) call.pair call.result := by
  obtain ⟨change, pair, user, actor⟩ := call
  cases change with
  | link =>
      obtain ⟨⟨db₁, row⟩, hlink, rfl⟩ := Option.map_eq_some_iff.mp h
      obtain ⟨hpairs, hself, hother, _⟩ := linkTransaction_linked hlink
      refine ⟨hpairs hunique, funext fun pair' => ?_⟩
      by_cases hp : pair' = pair
      · rw [hp, Function.update_self]
        exact hself
      · rw [Function.update_of_ne hp]
        exact hother pair' hp
  | unlink =>
      obtain ⟨hpairs, _, hself, hother, _⟩ := unlinkTransaction_unlinked hunique h
      refine ⟨hpairs, funext fun pair' => ?_⟩
      by_cases hp : pair' = pair
      · rw [hp, Function.update_self]
        exact hself
      · rw [Function.update_of_ne hp]
        exact hother pair' hp

theorem replayEntry_entry (users : Vendor × String → Option String) (began : ℤ) :
    replayEntry users (call.entry began) = Function.update users call.pair call.result := by
  obtain ⟨change, pair, user, actor⟩ := call
  cases change with
  | link => rfl
  | unlink => rfl

end IdentityCall

/-- The pair an entry is about. -/
def entryPair (entry : AuditEntry) : Option (Vendor × String) :=
  entry.vendor.bind fun vendor => entry.vendor_user_id.map fun user => (vendor, user)

/-- What a call writes, as the committed table is. -/
inductive Matches (rows : List VendorIdentity) (call : IdentityCall) : IdentityWrite → Prop
  | link {row : VendorIdentity} (hchange : call.change = .link)
      (hfits : VarcharTakes 255 call.pair.2 ∧ VarcharTakes 26 call.canonicalUserId)
      (hpair : pairOf row = call.pair) (huser : row.canonical_user_id = call.canonicalUserId) :
      Matches rows call (.upsert row)
  | unlink (hchange : call.change = .unlink)
      (hlinked : (call.pair, call.canonicalUserId) ∈ rows.map userOf) :
      Matches rows call (.delete call.pair call.canonicalUserId)

theorem Matches.pair {rows : List VendorIdentity} {call : IdentityCall} {write : IdentityWrite}
    (h : Matches rows call write) : write.pair = call.pair := by
  cases h with
  | link _ _ hpair _ => exact hpair
  | unlink _ _ => rfl

theorem written_matches {s : IdentityTransactions} {call : IdentityCall} {began : ℤ}
    {write : IdentityWrite} (h : call.written s began = some write) :
    Matches s.user_identities call write := by
  rw [IdentityCall.written] at h
  split at h
  · rename_i hchange
    split at h
    · rename_i hfits
      split at h
      · rename_i existing hfind
        obtain rfl := Option.some.inj h
        have hpair : pairOf existing = call.pair := by simpa using List.find?_some hfind
        exact .link hchange hfits hpair rfl
      · obtain rfl := Option.some.inj h
        exact .link hchange hfits rfl rfl
    · cases h
  · rename_i hchange
    split at h
    · rename_i hany
      obtain rfl := Option.some.inj h
      obtain ⟨row, hrow, hlinked⟩ := List.any_eq_true.mp hany
      obtain ⟨hpair, huser⟩ := of_decide_eq_true hlinked
      exact .unlink hchange (List.mem_map.mpr ⟨row, hrow, Prod.ext hpair huser⟩)
    · cases h

/-- A write of another pair leaves the users of a pair. -/
theorem users_apply_of_ne {rows : List VendorIdentity} {write : IdentityWrite}
    {user : (Vendor × String) × String} (hne : write.pair ≠ user.1)
    (h : user ∈ rows.map userOf) : user ∈ (write.apply rows).map userOf := by
  cases write with
  | upsert row =>
      rw [users_upsert, upsertUser]
      split
      · exact List.mem_map.mpr ⟨user, h, if_neg (Ne.symm hne)⟩
      · exact List.mem_append_left _ h
  | delete pair canonicalUserId =>
      rw [users_delete, List.mem_filter]
      exact ⟨h, decide_eq_true fun heq => hne heq.1.symm⟩

theorem Matches.of_ne {rows : List VendorIdentity} {call : IdentityCall}
    {write other : IdentityWrite} (h : Matches rows call write) (hne : other.pair ≠ write.pair) :
    Matches (other.apply rows) call write := by
  cases h with
  | link hchange hfits hpair huser => exact .link hchange hfits hpair huser
  | unlink hchange hlinked => exact .unlink hchange (users_apply_of_ne hne hlinked)

namespace IdentityTransactions

/-! ### What holds of each call -/

/-- A transaction that has written its row, and one that has written its entry: the
id of the entry is above those of all entries of its pair. -/
def Holds (s : IdentityTransactions) (i : ℕ) : Option IdentityCall.State → Prop
  | some (.record call _) =>
      (∃ write, s.writes.of i = [write] ∧ Matches s.user_identities call write) ∧
        s.entries.of i = []
  | some (.commit call) =>
      (∃ write, s.writes.of i = [write] ∧ Matches s.user_identities call write) ∧
        ∃ id began, s.entries.of i = [⟨id, call.entry began⟩] ∧ id < s.nextEntryId ∧
          ∀ e ∈ s.audit_log, entryPair e.entry = some call.pair → e.id < id
  | _ => s.writes.of i = [] ∧ s.entries.of i = []

structure Inv (c : Config ℕ IdentityTransactions IdentityCall.State) : Prop where
  calls : ∀ i, Holds c.shared i (c.threads i)
  exclusive : ∀ i j write other, (i, write) ∈ c.shared.writes → (j, other) ∈ c.shared.writes →
    write.pair = other.pair → i = j
  unique : UniquePairs c.shared.database
  ids : ∀ e ∈ c.shared.audit_log, e.id < c.shared.nextEntryId
  ordered : c.shared.audit_log.Pairwise fun e e' =>
    ∀ pair, entryPair e.entry = some pair → entryPair e'.entry = some pair → e.id < e'.id
  replayed : replay (c.shared.audit_log.map (·.entry)) = mapping c.shared.database

variable {c c' : Config ℕ IdentityTransactions IdentityCall.State} {s s' : IdentityTransactions}
  {i j : ℕ} {p q : IdentityCall.State} {state : Option IdentityCall.State} {call : IdentityCall}
  {began : ℤ}

/-- The steps of one call leave what holds of the others. -/
theorem Holds.frame (h : Holds s j state) (hwrites : s'.writes.of j = s.writes.of j)
    (hentries : s'.entries.of j = s.entries.of j) (hids : s.nextEntryId ≤ s'.nextEntryId)
    (hmatches : ∀ call, ∀ write ∈ s.writes.of j, Matches s.user_identities call write →
      Matches s'.user_identities call write)
    (hlog : ∀ e ∈ s'.audit_log, e ∈ s.audit_log ∨
      ∀ write ∈ s.writes.of j, entryPair e.entry ≠ some write.pair) : Holds s' j state := by
  have hkept (call : IdentityCall)
      (h : ∃ write, s.writes.of j = [write] ∧ Matches s.user_identities call write) :
      ∃ write, s'.writes.of j = [write] ∧ Matches s'.user_identities call write := by
    obtain ⟨write, hof, hmatch⟩ := h
    refine ⟨write, hwrites.trans hof, hmatches call write ?_ hmatch⟩
    rw [hof]
    exact List.mem_singleton_self write
  have hnone (h : s.writes.of j = [] ∧ s.entries.of j = []) :
      s'.writes.of j = [] ∧ s'.entries.of j = [] := ⟨hwrites.trans h.1, hentries.trans h.2⟩
  cases state with
  | none => exact hnone h
  | some state =>
      cases state with
      | record call began => exact ⟨hkept call h.1, hentries.trans h.2⟩
      | commit call =>
          obtain ⟨hwritten, id, began, hof, hid, hbelow⟩ := h
          refine ⟨hkept call hwritten, id, began, hentries.trans hof, hid.trans_le hids, ?_⟩
          intro e he hpair
          obtain hold | hother := hlog e he
          · exact hbelow e hold hpair
          · obtain ⟨write, hof, hmatch⟩ := hwritten
            refine absurd hpair (hmatch.pair ▸ hother write ?_)
            rw [hof]
            exact List.mem_singleton_self write
      | started call => exact hnone h
      | write call began => exact hnone h
      | committed call => exact hnone h
      | aborted call => exact hnone h

theorem holds_update (hown : Holds s i (some q)) (hothers : ∀ j, j ≠ i → Holds s j (c.threads j))
    (j : ℕ) : Holds s j (Function.update c.threads i (some q) j) := by
  by_cases hji : j = i
  · subst j
    rwa [Function.update_self]
  · rw [Function.update_of_ne hji]
    exact hothers j hji

/-! ### Steps -/

theorem Inv.begin (h : Inv c) (hi : c.threads i = none) (call : IdentityCall) :
    Inv { c with threads := Function.update c.threads i (some (.started call)) } := by
  have hcall := h.calls i
  rw [hi] at hcall
  exact ⟨holds_update hcall fun j _ => h.calls j, h.exclusive, h.unique, h.ids, h.ordered,
    h.replayed⟩

theorem Inv.tick (h : Inv c) (ms : ℕ) :
    Inv { c with shared := { c.shared with now := c.shared.now + ms } } :=
  ⟨fun j => (h.calls j).frame rfl rfl le_rfl (fun _ _ _ => id) fun _ => .inl, h.exclusive,
    h.unique, h.ids, h.ordered, h.replayed⟩

theorem Inv.start (h : Inv c) (hi : c.threads i = some (.started call)) :
    Inv { c with threads := Function.update c.threads i (some (.write call c.shared.now)) } := by
  have hcall := h.calls i
  rw [hi] at hcall
  exact ⟨holds_update hcall fun j _ => h.calls j, h.exclusive, h.unique, h.ids, h.ordered,
    h.replayed⟩

theorem Inv.write {n : ℕ} {write : IdentityWrite} (h : Inv c)
    (hi : c.threads i = some (.write call began))
    (hlocked : ¬ c.shared.Locked call.pair) (hwritten : call.written c.shared began = some write) :
    Inv ⟨{ c.shared with nextIdentityId := n, writes := c.shared.writes ++ [(i, write)] },
      Function.update c.threads i (some (.record call began))⟩ := by
  have hcall := h.calls i
  rw [hi] at hcall
  have hmatch := written_matches hwritten
  refine ⟨holds_update ⟨⟨write, ?_, hmatch⟩, hcall.2⟩ fun j hj => ?_, ?_, h.unique, h.ids,
    h.ordered, h.replayed⟩
  · rw [WriteSets.of_append_self, hcall.1, List.nil_append]
  · exact (h.calls j).frame (WriteSets.of_append_of_ne hj) rfl le_rfl (fun _ _ _ => id)
      fun _ => .inl
  · intro j k w w' hj hk hpair
    rw [List.mem_append, List.mem_singleton, Prod.mk.injEq] at hj hk
    obtain hj | ⟨rfl, rfl⟩ := hj
    · obtain hk | ⟨rfl, rfl⟩ := hk
      · exact h.exclusive j k w w' hj hk hpair
      · exact absurd ⟨_, hj, hpair.trans hmatch.pair⟩ hlocked
    · obtain hk | ⟨rfl, rfl⟩ := hk
      · exact absurd ⟨_, hk, hpair.symm.trans hmatch.pair⟩ hlocked
      · rfl

theorem Inv.record (h : Inv c) (hi : c.threads i = some (.record call began)) :
    Inv ⟨{ c.shared with
        nextEntryId := c.shared.nextEntryId + 1
        entries := c.shared.entries ++ [(i, ⟨c.shared.nextEntryId, call.entry began⟩)] },
      Function.update c.threads i (some (.commit call))⟩ := by
  have hcall := h.calls i
  rw [hi] at hcall
  refine ⟨holds_update ⟨hcall.1, c.shared.nextEntryId, began, ?_, Nat.lt_succ_self _, ?_⟩
    fun j hj => ?_, h.exclusive, h.unique, fun e he => Nat.lt_succ_of_lt (h.ids e he), h.ordered,
    h.replayed⟩
  · rw [WriteSets.of_append_self, hcall.2, List.nil_append]
  · exact fun e he _ => h.ids e he
  · exact (h.calls j).frame rfl (WriteSets.of_append_of_ne hj) (Nat.le_succ _) (fun _ _ _ => id)
      fun _ => .inl

theorem Inv.abort (h : Inv c) (call : IdentityCall) :
    Inv ⟨c.shared.rollback i, Function.update c.threads i (some (.aborted call))⟩ := by
  refine ⟨holds_update ⟨WriteSets.of_without_self, WriteSets.of_without_self⟩ fun j hj => ?_,
    fun j k w w' hj hk => ?_, h.unique, h.ids, h.ordered, h.replayed⟩
  · exact (h.calls j).frame (WriteSets.of_without_of_ne hj) (WriteSets.of_without_of_ne hj)
      le_rfl (fun _ _ _ => id) fun _ => .inl
  · exact h.exclusive j k w w' (WriteSets.mem_without.mp hj).1 (WriteSets.mem_without.mp hk).1

/-- At its commit a call does what its transaction does in one step. -/
theorem Inv.commit_refines (h : Inv c) (hi : c.threads i = some (.commit call)) :
    ∃ db, call.transaction c.shared.database = some db ∧
      identityTables db = identityTables (c.shared.publish i).database := by
  have hcall := h.calls i
  rw [hi] at hcall
  obtain ⟨⟨write, hwrites, hmatch⟩, id, began, hentries, _⟩ := hcall
  have hlog : (identityTables (c.shared.publish i).database).entries =
      (identityTables c.shared.database).entries ++ [call.entry 0] := by
    simp only [identityTables, database, publish, hentries, List.map_append, List.map_map]
    rfl
  have happly : call.applyTo (identityTables c.shared.database) =
      some (identityTables (c.shared.publish i).database) := by
    have husers : (identityTables (c.shared.publish i).database).users =
        (write.apply c.shared.user_identities).map userOf := by
      simp only [identityTables, database, publish, hwrites, List.foldl_cons, List.foldl_nil]
    rw [IdentityCall.applyTo]
    cases hmatch with
    | link hchange hfits hpair huser =>
        simp only [hchange, if_pos hfits]
        rw [users_upsert, hpair, huser] at husers
        rw [← hlog]
        exact congrArg (fun users => some (IdentityTables.mk users _)) husers.symm
    | unlink hchange hlinked =>
        simp only [hchange]
        rw [if_pos, ← hlog]
        · rw [users_delete] at husers
          exact congrArg (fun users => some (IdentityTables.mk users _)) husers.symm
        · exact List.any_eq_true.mpr ⟨_, hlinked, decide_eq_true ⟨rfl, rfl⟩⟩
  rw [← transaction_tables] at happly
  exact Option.map_eq_some_iff.mp happly

theorem unique_of_tables {db db' : Database} (h : identityTables db = identityTables db')
    (hunique : UniquePairs db) : UniquePairs db' := by
  have husers : db.user_identities.map userOf = db'.user_identities.map userOf :=
    congrArg IdentityTables.users h
  have hpairs (rows : List VendorIdentity) :
      rows.map pairOf = (rows.map userOf).map Prod.fst := by
    rw [List.map_map]
    rfl
  rw [UniquePairs, hpairs, ← husers, ← hpairs]
  exact hunique

theorem mapping_of_tables {db db' : Database} (h : identityTables db = identityTables db') :
    mapping db = mapping db' := by
  have husers : db.user_identities.map userOf = db'.user_identities.map userOf :=
    congrArg IdentityTables.users h
  funext pair
  rw [mapping_eq_users, mapping_eq_users, husers]

theorem Inv.commit (h : Inv c) (hi : c.threads i = some (.commit call)) :
    Inv ⟨c.shared.publish i, Function.update c.threads i (some (.committed call))⟩ := by
  obtain ⟨db, hdb, htables⟩ := h.commit_refines hi
  obtain ⟨hunique, hmapping⟩ := IdentityCall.transaction_unique h.unique hdb
  have hcall := h.calls i
  rw [hi] at hcall
  obtain ⟨⟨write, hwrites, hmatch⟩, id, began, hentries, hid, hbelow⟩ := hcall
  have hwrite : (i, write) ∈ c.shared.writes :=
    WriteSets.mem_of.mp (hwrites ▸ List.mem_singleton_self write)
  -- Whoever else has a row has that of another pair.
  have hother (j : ℕ) (hj : j ≠ i) (w : IdentityWrite) (hw : w ∈ c.shared.writes.of j) :
      write.pair ≠ w.pair := fun hpair =>
    hj (h.exclusive i j write w hwrite (WriteSets.mem_of.mp hw) hpair).symm
  have hlog : (c.shared.publish i).audit_log =
      c.shared.audit_log ++ [⟨id, call.entry began⟩] := by rw [publish, hentries]
  have hrows : (c.shared.publish i).user_identities = write.apply c.shared.user_identities := by
    simp only [publish, hwrites, List.foldl_cons, List.foldl_nil]
  refine ⟨holds_update ⟨WriteSets.of_without_self, WriteSets.of_without_self⟩ fun j hj => ?_,
    fun j k w w' hj hk => ?_, unique_of_tables htables hunique, fun e he => ?_, ?_, ?_⟩
  · refine (h.calls j).frame (WriteSets.of_without_of_ne hj) (WriteSets.of_without_of_ne hj)
      le_rfl (fun call' w hw hmatch' => ?_) fun e he => ?_
    · rw [hrows]
      exact hmatch'.of_ne (hother j hj w hw)
    · rw [hlog, List.mem_append, List.mem_singleton] at he
      refine he.imp_right fun heq w hw hpair => ?_
      subst heq
      exact hother j hj w hw (hmatch.pair.trans (Option.some.inj hpair))
  · exact h.exclusive j k w w' (WriteSets.mem_without.mp hj).1 (WriteSets.mem_without.mp hk).1
  · rw [hlog, List.mem_append, List.mem_singleton] at he
    obtain he | rfl := he
    · exact h.ids e he
    · exact hid
  · show (c.shared.publish i).audit_log.Pairwise _
    rw [hlog, List.pairwise_append]
    refine ⟨h.ordered, List.pairwise_singleton _ _, fun e he e' he' pair hpair hpair' => ?_⟩
    obtain rfl := List.mem_singleton.mp he'
    obtain rfl := Option.some.inj hpair'
    exact hbelow e he hpair
  · show replay ((c.shared.publish i).audit_log.map (·.entry)) =
      mapping (c.shared.publish i).database
    rw [hlog, List.map_append, List.map_singleton, replay_append, h.replayed,
      IdentityCall.replayEntry_entry, ← hmapping, mapping_of_tables htables]

/-- A call that takes a step, if it does not commit, keeps what has been committed. -/
theorem statement_of_not_commit {p q : IdentityCall.State} (h : s.statement i p = some (s', q))
    (hp : ∀ call, p ≠ .commit call) :
    identityTables s'.database = identityTables s.database ∧ ∀ call, q ≠ .committed call := by
  cases p with
  | started call =>
      obtain ⟨rfl, rfl⟩ := Prod.mk.inj (Option.some.inj h)
      exact ⟨rfl, fun _ h => by cases h⟩
  | write call began =>
      rw [statement] at h
      split at h
      · cases h
      · obtain ⟨write, _, heq⟩ := Option.map_eq_some_iff.mp h
        obtain ⟨rfl, rfl⟩ := Prod.mk.inj heq
        exact ⟨rfl, fun _ h => by cases h⟩
  | record call began =>
      obtain ⟨rfl, rfl⟩ := Prod.mk.inj (Option.some.inj h)
      exact ⟨rfl, fun _ h => by cases h⟩
  | commit call => exact absurd rfl (hp call)
  | committed call => cases h
  | aborted call => cases h

theorem Inv.statement (h : Inv c) (hi : c.threads i = some p)
    (hstep : c.shared.statement i p = some (s', q)) :
    Inv ⟨s', Function.update c.threads i (some q)⟩ := by
  cases p with
  | started call =>
      obtain ⟨rfl, rfl⟩ := Prod.mk.inj (Option.some.inj hstep)
      exact h.start hi
  | write call began =>
      rw [IdentityTransactions.statement] at hstep
      split at hstep
      · cases hstep
      · rename_i hlocked
        obtain ⟨write, hwritten, heq⟩ := Option.map_eq_some_iff.mp hstep
        obtain ⟨rfl, rfl⟩ := Prod.mk.inj heq
        exact h.write hi hlocked hwritten
  | record call began =>
      obtain ⟨rfl, rfl⟩ := Prod.mk.inj (Option.some.inj hstep)
      exact h.record hi
  | commit call =>
      obtain ⟨rfl, rfl⟩ := Prod.mk.inj (Option.some.inj hstep)
      exact h.commit hi
  | committed call => cases hstep
  | aborted call => cases hstep

theorem abort_cases (h : s.abort i p = some (s', q)) :
    s' = s.rollback i ∧ (∃ call, q = .aborted call) ∧ ∀ call, p ≠ .committed call := by
  cases p with
  | committed call => cases h
  | aborted call => cases h
  | _ =>
      obtain ⟨rfl, rfl⟩ := Prod.mk.inj (Option.some.inj h)
      exact ⟨rfl, ⟨_, rfl⟩, fun _ h => by cases h⟩

theorem inv_of_reach (hreach : system.Reach OnlyCalls c) : Inv c := by
  refine hreach.invariant (fun c hinit => ?_) fun c a c' h hstart hexec => ?_
  · obtain ⟨⟨hrows, hlog, hwrites, hentries⟩, hidle⟩ := hinit
    refine ⟨fun i => ?_, fun i j w w' hw => ?_, ?_, fun e he => ?_, ?_, ?_⟩
    · rw [hidle i]
      exact ⟨by rw [hwrites]; rfl, by rw [hentries]; rfl⟩
    · rw [hwrites] at hw
      cases hw
    · rw [UniquePairs, database, hrows]
      exact List.nodup_nil
    · rw [hlog] at he
      cases he
    · rw [hlog]
      exact .nil
    · rw [hlog, database, hrows]
      rfl
  · obtain ⟨i, p, rfl, hi, rfl⟩ | ⟨i, e, p, s, q, rfl, hi, hstep, rfl⟩ | ⟨ms, s, rfl, htick, rfl⟩ :=
      Program.exec_cases hexec
    · obtain ⟨call, rfl⟩ := hstart
      exact h.begin hi call
    · cases e with
      | ok => exact h.statement hi hstep
      | abort =>
          obtain ⟨rfl, ⟨call, rfl⟩, _⟩ := abort_cases hstep
          exact h.abort call
    · obtain rfl := Option.some.inj htick
      exact h.tick ms

/-! ### The order of the calls -/

/-- What the call has done when its transaction has been committed. -/
def done : IdentityCall.State → Option IdentityCall
  | .committed call => some call
  | _ => none

theorem done_eq_some {call : IdentityCall} : done p = some call ↔ p = .committed call := by
  cases p with
  | committed call' =>
      rw [done, Option.some_inj, IdentityCall.State.committed.injEq]
  | _ => exact ⟨fun h => (by cases h), fun h => by cases h⟩

theorem done_eq_none (h : ∀ call, p ≠ .committed call) : done p = none :=
  Option.eq_none_iff_forall_ne_some.mpr fun call hcall => h call (done_eq_some.mp hcall)

def OneStep (t : IdentityTables) (call : IdentityCall) (t' : IdentityTables) : Prop :=
  call.applyTo t = some t'

/-- Transactions one after the other; `none` when one of them fails. -/
def inTurn (db : Database) (calls : List IdentityCall) : Option Database :=
  calls.foldlM (fun db call => call.transaction db) db

theorem inTurn_of_moves (now : ℤ) {calls : List IdentityCall} {t : IdentityTables}
    (h : Moves OneStep ⟨[], []⟩ calls t) :
    ∃ db, inTurn (.empty now) calls = some db ∧ identityTables db = t := by
  generalize hstart : (⟨[], []⟩ : IdentityTables) = start at h
  induction h with
  | nil => exact ⟨.empty now, rfl, hstart⟩
  | @snoc b d call calls moves last ih =>
      obtain ⟨db₁, hcalls, rfl⟩ := ih
      rw [OneStep, ← transaction_tables] at last
      obtain ⟨db₂, hlast, htables⟩ := Option.map_eq_some_iff.mp last
      refine ⟨db₂, ?_, htables⟩
      rw [inTurn] at hcalls ⊢
      rw [List.foldlM_append, hcalls]
      show (call.transaction db₁).bind (fun db => some db) = some db₂
      rw [hlast, Option.bind_some]

/-- Every interleaving of the statements of any number of links and unlinks, with any
of them rolled back, is as good as an order: the transactions that have committed,
each once, go through one after the other on an empty database, and leave the same
mapping in the same rows, and the same entries, but for ids and times. -/
theorem identity_calls_serializable (hreach : system.Reach OnlyCalls c) (now : ℤ) :
    ∃ calls : List (ℕ × IdentityCall), (calls.map Prod.fst).Nodup ∧
      (∀ i call, (i, call) ∈ calls ↔ c.threads i = some (.committed call)) ∧
      ∃ db, inTurn (.empty now) (calls.map Prod.snd) = some db ∧
        identityTables db = identityTables c.shared.database := by
  have hserial : ∃ calls, Program.SerialOrder OneStep
      (fun s : IdentityTransactions => identityTables s.database) done ⟨[], []⟩ c calls := by
    refine Program.exists_serialOrder (P := program) (G := OnlyCalls) ?_ ?_ ?_ ?_ hreach
    · rintro s ⟨hrows, hlog, _⟩
      rw [identityTables, database, hrows, hlog]
      rfl
    · rintro c i p ⟨call, rfl⟩
      rfl
    · intro c hc i e p s q hi hstep
      cases e with
      | ok =>
          by_cases hp : ∃ call, p = .commit call
          · obtain ⟨call, rfl⟩ := hp
            obtain ⟨rfl, rfl⟩ := Prod.mk.inj (Option.some.inj hstep)
            obtain ⟨db, hdb, htables⟩ := (inv_of_reach hc).commit_refines hi
            refine .inr ⟨rfl, call, rfl, ?_⟩
            rw [OneStep, ← transaction_tables, hdb, Option.map_some, htables]
          · have hnot (call : IdentityCall) : p ≠ .commit call := fun h => hp ⟨call, h⟩
            obtain ⟨htables, hq⟩ := statement_of_not_commit hstep hnot
            refine .inl ⟨htables, ?_⟩
            have hpnot (call : IdentityCall) : p ≠ .committed call := by
              rintro rfl
              cases hstep
            rw [done_eq_none hq, done_eq_none hpnot]
      | abort =>
          obtain ⟨rfl, ⟨call, rfl⟩, hp⟩ := abort_cases hstep
          exact .inl ⟨rfl, (done_eq_none hp).symm⟩
    · intro s ms s' h
      obtain rfl := Option.some.inj h
      rfl
  obtain ⟨calls, hnodup, hcalls, hmoves⟩ := hserial
  refine ⟨calls, hnodup, fun i call => (hcalls i call).trans ?_, inTurn_of_moves now hmoves⟩
  cases c.threads i with
  | none => exact ⟨fun h => (by cases h), fun h => by cases h⟩
  | some p => exact done_eq_some.trans (by rw [Option.some_inj])

/-! ### A link and an unlink that have waited -/

def noIdentityCalls : Config ℕ IdentityTransactions IdentityCall.State :=
  ⟨⟨[], [], 1, 1, 0, [], []⟩, fun _ => none⟩

/-- Link 0 begins, then link 1 of the same pair begins and writes, and unlink 2 of
what it has written begins. Once link 1 has committed the unlink gets to the row,
and link 0 after it. -/
def waitedActions : List (Action ℕ IdentityCall.State Outcome ℕ) :=
  [.spawn 0 (.started ⟨.link, linkedTwice, "golfer-1", "internal-api"⟩), .step 0 .ok, .env 10,
    .spawn 1 (.started ⟨.link, linkedTwice, "golfer-2", "internal-api"⟩), .step 1 .ok,
    .step 1 .ok, .spawn 2 (.started ⟨.unlink, linkedTwice, "golfer-2", "internal-api"⟩),
    .step 2 .ok, .step 1 .ok, .step 1 .ok, .step 2 .ok, .step 2 .ok, .step 2 .ok,
    .step 0 .ok, .step 0 .ok, .step 0 .ok]

def waited : Config ℕ IdentityTransactions IdentityCall.State :=
  (system.execAll noIdentityCalls waitedActions).getD noIdentityCalls

theorem reach_waited : system.Reach OnlyCalls waited := by
  have hstarts : ∀ a ∈ waitedActions, ∀ c, OnlyCalls c a := by
    simp only [waitedActions, List.forall_mem_cons]
    refine ⟨fun _ => ⟨_, rfl⟩, fun _ => trivial, fun _ => trivial, fun _ => ⟨_, rfl⟩,
      fun _ => trivial, fun _ => trivial, fun _ => ⟨_, rfl⟩, ?_⟩
    simp [OnlyCalls]
  exact ⟨noIdentityCalls, waitedActions, ⟨⟨rfl, rfl, rfl, rfl⟩, fun _ => rfl⟩,
    System.run_of_isSome hstarts (by decide +kernel)⟩

theorem identity_calls_serializable_waited :
    waited.shared.audit_log.map (·.entry.action) = [.identityLink, .identityUnlink, .identityLink] ∧
    ∃ calls : List (ℕ × IdentityCall), (calls.map Prod.fst).Nodup ∧
      (∀ i call, (i, call) ∈ calls ↔ waited.threads i = some (.committed call)) ∧
      ∃ db, inTurn (.empty 0) (calls.map Prod.snd) = some db ∧
        identityTables db = identityTables waited.shared.database :=
  ⟨by decide +kernel, identity_calls_serializable reach_waited 0⟩

end IdentityTransactions

end PureplayIngest.Identity
