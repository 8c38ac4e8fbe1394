import PureplayIngest.Identity.SerialCalls

/-!
The audit log read by the ids of its entries.

An id is drawn when the entry is written, before the commit, and so the ids need not
be in the order of the commits. Those of the entries about one pair are, since the
next transaction has to wait for the row of the pair, and that is all a replay needs.
The times of the entries do not do instead: a transaction may have begun before one
that it has waited for.
-/

namespace PureplayIngest.Identity

open Shared.Domain Shared.Kysely Lib

/-- An entry sets the pair it is about, or says nothing. -/
theorem replayEntry_cases (entry : AuditEntry) :
    (∃ pair result, entryPair entry = some pair ∧
      ∀ users, replayEntry users entry = Function.update users pair result) ∨
    ∀ users, replayEntry users entry = users := by
  obtain ⟨action, actor, user, vendor, vendorUserId, count, created⟩ := entry
  cases vendor with
  | none => exact .inr fun _ => by cases action <;> rfl
  | some vendor =>
      cases vendorUserId with
      | none => exact .inr fun _ => by cases action <;> rfl
      | some vendorUserId =>
          cases action with
          | identityLink => exact .inl ⟨(vendor, vendorUserId), user, rfl, fun _ => rfl⟩
          | identityUnlink => exact .inl ⟨(vendor, vendorUserId), none, rfl, fun _ => rfl⟩
          | identityList => exact .inr fun _ => rfl

theorem replayEntry_of_ne {users : Vendor × String → Option String} {entry : AuditEntry}
    {pair : Vendor × String} (h : entryPair entry ≠ some pair) :
    replayEntry users entry pair = users pair := by
  obtain ⟨pair', result, hpair, hupdate⟩ | hsame := replayEntry_cases entry
  · rw [hupdate, Function.update_of_ne]
    rintro rfl
    exact h hpair
  · rw [hsame]

theorem replayEntry_congr {users users' : Vendor × String → Option String} {entry : AuditEntry}
    {pair : Vendor × String} (h : users pair = users' pair) :
    replayEntry users entry pair = replayEntry users' entry pair := by
  obtain ⟨pair', result, _, hupdate⟩ | hsame := replayEntry_cases entry
  · rw [hupdate, hupdate, Function.update_apply, Function.update_apply, h]
  · rw [hsame, hsame, h]

/-- What a pair is mapped to is told by the entries about the pair. -/
theorem replay_filter (log : List AuditEntry) (pair : Vendor × String) :
    replay log pair = replay (log.filter fun entry => entryPair entry = some pair) pair := by
  have hfold : ∀ users users' : Vendor × String → Option String, users pair = users' pair →
      log.foldl replayEntry users pair =
        (log.filter fun entry => entryPair entry = some pair).foldl replayEntry users' pair := by
    induction log with
    | nil => exact fun _ _ h => h
    | cons entry log ih =>
        intro users users' h
        rw [List.foldl_cons, List.filter_cons]
        split
        · rw [List.foldl_cons]
          refine ih _ _ (replayEntry_congr h)
        · rename_i hother
          refine ih _ _ ((replayEntry_of_ne ?_).trans h)
          exact fun hpair => hother (decide_eq_true hpair)
  exact hfold _ _ rfl

namespace IdentityTransactions

variable {c : Config ℕ IdentityTransactions IdentityCall.State}

/-- In every state of every run, and in whatever order by `id` the log is read: its
links and unlinks, replayed in that order, give the mapping that the table holds. -/
theorem audit_log_by_id (hreach : system.Reach OnlyCalls c) {log : List NumberedEntry}
    (hperm : log.Perm c.shared.audit_log) (hsorted : log.Pairwise fun e e' => e.id ≤ e'.id) :
    replay (log.map (·.entry)) = mapping c.shared.database := by
  have h := inv_of_reach hreach
  rw [← h.replayed]
  funext pair
  rw [replay_filter, replay_filter (c.shared.audit_log.map _), List.filter_map, List.filter_map]
  refine congrFun (congrArg _ (congrArg _ (filter_eq_of_perm hperm hsorted ?_))) pair
  refine List.Pairwise.imp_of_mem (fun he he' hlt => ?_) (h.ordered.filter _)
  exact hlt pair (of_decide_eq_true (List.mem_filter.mp he).2)
    (of_decide_eq_true (List.mem_filter.mp he').2)

/-- By `id` the log gives the mapping; by `created_at` it gives the other user. -/
theorem audit_log_by_id_waited :
    mapping waited.shared.database linkedTwice = some "golfer-1" ∧
      replay (waited.shared.audit_log.map (·.entry)) = mapping waited.shared.database ∧
      ∃ log : List NumberedEntry, log.Perm waited.shared.audit_log ∧
        (log.Pairwise fun e e' => e.entry.created_at ≤ e'.entry.created_at) ∧
        replay (log.map (·.entry)) linkedTwice = some "golfer-2" := by
  refine ⟨by decide +kernel, audit_log_by_id reach_waited (.refl _) (by decide +kernel), ?_⟩
  exact ⟨waited.shared.audit_log.reverse, List.reverse_perm _, by decide +kernel,
    by decide +kernel⟩

end IdentityTransactions

end PureplayIngest.Identity
