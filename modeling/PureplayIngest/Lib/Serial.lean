import Mathlib.Data.List.Nodup
import PureplayIngest.Lib.Interleaving

/-!
Calls that run beside each other as if they ran one after the other.

A call takes effect in the step that ends it: in that step the view of the shared
state makes one move that the call allows, and in every other step it stays as it
is. Then the calls that have ended have an order, that of their ends, in which
their moves lead from the first view to the present one.

A log that numbers its entries before that, but so that the numbers of entries of a
kind increase, can be read by number as far as the kind is concerned.
-/

namespace PureplayIngest.Lib

/-- One move after the other, each with its label. -/
inductive Moves {α κ : Type*} (T : α → κ → α → Prop) : α → List κ → α → Prop
  | nil (a : α) : Moves T a [] a
  | snoc {a b c : α} {l : κ} {ls : List κ} (moves : Moves T a ls b) (last : T b l c) :
      Moves T a (ls ++ [l]) c

namespace Program

variable {ι σ π ε η α κ : Type*} [DecidableEq ι] {P : Program ι σ π ε η} {init : σ → Prop}
  {G : Config ι σ π → Action ι π ε η → Prop} {T : α → κ → α → Prop} {view : σ → α}
  {ended : π → Option κ} {start : α} {c : Config ι σ π}

/-- The calls that have ended, each once, in an order in which they lead to the view. -/
def SerialOrder (T : α → κ → α → Prop) (view : σ → α) (ended : π → Option κ) (start : α)
    (c : Config ι σ π) (calls : List (ι × κ)) : Prop :=
  (calls.map Prod.fst).Nodup ∧ (∀ i l, (i, l) ∈ calls ↔ (c.threads i).bind ended = some l) ∧
    Moves T start (calls.map Prod.snd) (view c.shared)

omit [DecidableEq ι] in
theorem SerialOrder.of_same {calls : List (ι × κ)} {c' : Config ι σ π}
    (h : SerialOrder T view ended start c calls) (hview : view c'.shared = view c.shared)
    (hended : ∀ i, (c'.threads i).bind ended = (c.threads i).bind ended) :
    SerialOrder T view ended start c' calls :=
  ⟨h.1, fun i l => (h.2.1 i l).trans (by rw [hended i]), hview ▸ h.2.2⟩

theorem ended_update {threads : ι → Option π} {i : ι} {q : π}
    (h : ended q = (threads i).bind ended) (j : ι) :
    (Function.update threads i (some q) j).bind ended = (threads j).bind ended := by
  by_cases hj : j = i
  · subst hj
    rw [Function.update_self, Option.bind_some, h]
  · rw [Function.update_of_ne hj]

theorem SerialOrder.snoc {calls : List (ι × κ)} {i : ι} {q : π} {s : σ} {l : κ}
    (h : SerialOrder T view ended start c calls) (hrunning : (c.threads i).bind ended = none)
    (hq : ended q = some l) (hmove : T (view c.shared) l (view s)) :
    SerialOrder T view ended start ⟨s, Function.update c.threads i (some q)⟩
      (calls ++ [(i, l)]) := by
  obtain ⟨hnodup, hcalls, hmoves⟩ := h
  refine ⟨?_, fun j l' => ?_, ?_⟩
  · rw [List.map_append, List.nodup_append]
    refine ⟨hnodup, List.nodup_singleton i, fun j hj j' hj' heq => ?_⟩
    obtain ⟨⟨k, l'⟩, hmem, rfl⟩ := List.mem_map.mp hj
    have hthread := (hcalls k l').mp hmem
    rw [show k = i from heq.trans (List.mem_singleton.mp hj'), hrunning] at hthread
    cases hthread
  · rw [List.mem_append, List.mem_singleton, hcalls]
    show _ ↔ (Function.update c.threads i (some q) j).bind ended = some l'
    by_cases hj : j = i
    · subst hj
      rw [Function.update_self, Option.bind_some, hq, hrunning, Prod.mk.injEq,
        Option.some.injEq]
      exact ⟨fun h => h.elim (fun h => by cases h) fun h => h.2.symm, fun h => .inr ⟨rfl, h.symm⟩⟩
    · rw [Function.update_of_ne hj]
      exact or_iff_left fun heq => hj (Prod.mk.inj heq).1
  · rw [List.map_append]
    exact hmoves.snoc hmove

/-- The rule: calls begin unended, and each step is without a trace or the end of
its call. -/
theorem exists_serialOrder (hstart : ∀ s, init s → view s = start)
    (hspawn : ∀ c i p, G c (.spawn i p) → ended p = none)
    (hstep : ∀ c, (P.system init).Reach G c → ∀ i e p s q, c.threads i = some p →
      P.step i c.shared p e = some (s, q) →
      view s = view c.shared ∧ ended q = ended p ∨
        ended p = none ∧ ∃ l, ended q = some l ∧ T (view c.shared) l (view s))
    (henv : ∀ s x s', P.env s x = some s' → view s' = view s)
    (hreach : (P.system init).Reach G c) :
    ∃ calls, SerialOrder T view ended start c calls := by
  have hboth : (P.system init).Reach G c ∧ ∃ calls, SerialOrder T view ended start c calls := by
    refine hreach.invariant
      (I := fun c => (P.system init).Reach G c ∧ ∃ calls, SerialOrder T view ended start c calls)
      (fun c hc => ⟨.init hc, [], ?_⟩) ?_
    · refine ⟨List.nodup_nil, fun i l => ?_, ?_⟩
      · rw [hc.2 i]
        exact ⟨fun h => absurd h List.not_mem_nil, fun h => by cases h⟩
      · rw [hstart _ hc.1]
        exact .nil _
    · rintro c a c' ⟨hc, calls, hcalls⟩ hguard hexec
      refine ⟨hc.step hguard hexec, ?_⟩
      obtain ⟨i, p, rfl, hi, rfl⟩ | ⟨i, e, p, s, q, rfl, hi, hs, rfl⟩ | ⟨x, s, rfl, hs, rfl⟩ :=
        exec_cases hexec
      · refine ⟨calls, hcalls.of_same rfl (ended_update ?_)⟩
        rw [hi, hspawn c i p hguard, Option.bind_none]
      · obtain ⟨hview, hended⟩ | ⟨hrunning, l, hl, hmove⟩ := hstep c hc i e p s q hi hs
        · refine ⟨calls, hcalls.of_same hview (ended_update ?_)⟩
          rw [hi, hended, Option.bind_some]
        · refine ⟨calls ++ [(i, l)], hcalls.snoc ?_ hl hmove⟩
          rw [hi, Option.bind_some, hrunning]
      · exact ⟨calls, hcalls.of_same (henv _ x s hs) fun _ => rfl⟩
  exact hboth.2

end Program

/-! ### Numbers that keep the order -/

/-- Whatever order by number a list is read in, its entries of a kind come in theirs. -/
theorem filter_eq_of_perm {α : Type*} {number : α → ℕ} {kind : α → Bool} {l l' : List α}
    (hperm : l'.Perm l) (hsorted : l'.Pairwise fun a b => number a ≤ number b)
    (hkind : (l.filter kind).Pairwise fun a b => number a < number b) :
    l'.filter kind = l.filter kind := by
  have hnodup : ((l.filter kind).map number).Nodup :=
    List.pairwise_map.mpr (hkind.imp fun h => Nat.ne_of_lt h)
  refine List.Perm.eq_of_pairwise (fun a b ha hb hab hba => ?_) (hsorted.filter _)
    (hkind.imp Nat.le_of_lt) (hperm.filter _)
  have ha' : a ∈ l.filter kind := (hperm.filter _).mem_iff.mp ha
  exact List.inj_on_of_nodup_map hnodup ha' hb (Nat.le_antisymm hab hba)

end PureplayIngest.Lib
