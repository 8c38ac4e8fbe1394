import Mathlib.Logic.Function.Basic

/-!
Labelled transition systems whose steps are computed.

A `System` says which configurations a run may start in and what each
action does to a configuration; an action that is not possible there gives
`none`. Everything that is not determined (which process moves, what a
query with ties returns) is part of the action, so a concrete run is a list
of actions and can be evaluated.

Runs carry a guard `G`: every action of the run is taken in a configuration
where `G` admits it. The guard is how an assumption on the environment, or
the condition under which a protocol is correct, is written down once and
used at each step.
-/

namespace PureplayIngest.Lib

structure System (Cfg Act : Type*) where
  init : Cfg → Prop
  exec : Cfg → Act → Option Cfg

namespace System

variable {Cfg Act : Type*} {S : System Cfg Act} {G H : Cfg → Act → Prop}

/-- `S.Run G c as c'`: the actions `as` lead from `c` to `c'`, each of them
admitted by the guard in the configuration it is taken in. -/
inductive Run (S : System Cfg Act) (G : Cfg → Act → Prop) : Cfg → List Act → Cfg → Prop
  | nil (c : Cfg) : Run S G c [] c
  | cons {c c' c'' : Cfg} {a : Act} {as : List Act} (hguard : G c a)
      (hexec : S.exec c a = some c') (tail : Run S G c' as c'') : Run S G c (a :: as) c''

/-- The configurations guarded runs reach from an initial one. -/
def Reach (S : System Cfg Act) (G : Cfg → Act → Prop) (c : Cfg) : Prop :=
  ∃ c₀ as, S.init c₀ ∧ S.Run G c₀ as c

/-- The guard that admits everything. -/
def free : Cfg → Act → Prop := fun _ _ => True

/-- Evaluate a list of actions. -/
def execAll (S : System Cfg Act) : Cfg → List Act → Option Cfg
  | c, [] => some c
  | c, a :: as => (S.exec c a).bind fun c' => S.execAll c' as

theorem Run.append {c d e : Cfg} {as bs : List Act} (h : S.Run G c as d) (h' : S.Run G d bs e) :
    S.Run G c (as ++ bs) e := by
  induction h with
  | nil => exact h'
  | cons hguard hexec _ ih => exact .cons hguard hexec (ih h')

theorem Run.mono {c c' : Cfg} {as : List Act} (hGH : ∀ c a, G c a → H c a)
    (h : S.Run G c as c') : S.Run H c as c' := by
  induction h with
  | nil c => exact .nil c
  | cons hguard hexec _ ih => exact .cons (hGH _ _ hguard) hexec ih

/-- Where runs may start does not matter to what comes after. -/
theorem Run.of_exec {S' : System Cfg Act} {c c' : Cfg} {as : List Act}
    (hexec : S.exec = S'.exec) (h : S.Run G c as c') : S'.Run G c as c' := by
  induction h with
  | nil c => exact .nil c
  | cons hguard hstep _ ih => exact .cons hguard (hexec ▸ hstep) ih

/-- A run is admitted by another guard as well, or there is a first action that is not. -/
theorem Run.admitted_or_first {c c' : Cfg} {as : List Act} (h : S.Run H c as c') :
    S.Run G c as c' ∨ ∃ bs a cs d e, S.Run G c bs d ∧ H d a ∧ ¬ G d a ∧ S.exec d a = some e ∧
      S.Run H e cs c' := by
  induction h with
  | nil c => exact .inl (.nil c)
  | @cons c d e a as hguard hexec tail ih =>
      by_cases hG : G c a
      · obtain hrun | ⟨bs, b, cs, d', e', hbs, hb, hnot, hexec', hcs⟩ := ih
        · exact .inl (.cons hG hexec hrun)
        · exact .inr ⟨a :: bs, b, cs, d', e', .cons hG hexec hbs, hb, hnot, hexec', hcs⟩
      · exact .inr ⟨[], a, as, c, d, .nil c, hguard, hG, hexec, tail⟩

theorem execAll_cons {c d : Cfg} {a : Act} {as : List Act} (h : S.exec c a = some d) :
    S.execAll c (a :: as) = S.execAll d as := by
  rw [execAll, h, Option.bind_some]

theorem execAll_append {c : Cfg} {as bs : List Act} :
    S.execAll c (as ++ bs) = (S.execAll c as).bind fun d => S.execAll d bs := by
  induction as generalizing c with
  | nil => rfl
  | cons a as ih =>
      rw [List.cons_append, execAll, execAll, Option.bind_assoc]
      exact congrArg _ (funext fun _ => ih)

theorem execAll_of_run {c c' : Cfg} {as : List Act} (h : S.Run G c as c') :
    S.execAll c as = some c' := by
  induction h with
  | nil => rfl
  | cons _ hexec _ ih => simp only [execAll, hexec, Option.bind_some, ih]

/-- A computed run, under a guard that looks at the actions only. -/
theorem run_of_execAll {c c' : Cfg} {as : List Act} (hG : ∀ a ∈ as, ∀ c, G c a)
    (h : S.execAll c as = some c') : S.Run G c as c' := by
  induction as generalizing c with
  | nil =>
      obtain rfl := Option.some.inj h
      exact .nil c
  | cons a as ih =>
      rw [execAll, Option.bind_eq_some_iff] at h
      obtain ⟨c₁, hexec, hrest⟩ := h
      exact .cons (hG a List.mem_cons_self c) hexec
        (ih (fun a' ha' => hG a' (List.mem_cons_of_mem _ ha')) hrest)

/-- A run of which only that it can be computed matters. -/
theorem run_of_isSome {c : Cfg} {as : List Act} (hG : ∀ a ∈ as, ∀ c, G c a)
    (h : (S.execAll c as).isSome = true) : S.Run G c as ((S.execAll c as).getD c) := by
  obtain ⟨c', hc'⟩ := Option.isSome_iff_exists.mp h
  rw [hc', Option.getD_some]
  exact run_of_execAll hG hc'

/-- A run whose guards are looked at one by one, each in the configuration
that evaluating the actions before it gives. -/
theorem run_of_guards {c : Cfg} {as : List Act} (h : (S.execAll c as).isSome = true)
    (hG : ∀ k a d, as[k]? = some a → S.execAll c (as.take k) = some d → G d a) :
    S.Run G c as ((S.execAll c as).getD c) := by
  obtain ⟨e, he⟩ := Option.isSome_iff_exists.mp h
  rw [he, Option.getD_some]
  clear h
  induction as generalizing c with
  | nil =>
      obtain rfl := Option.some.inj he
      exact .nil c
  | cons a as ih =>
      rw [execAll, Option.bind_eq_some_iff] at he
      obtain ⟨c₁, hexec, hrest⟩ := he
      refine .cons (hG 0 a c rfl rfl) hexec (ih (fun k b d hb hd => ?_) hrest)
      refine hG (k + 1) b d hb ?_
      rw [List.take_succ_cons, execAll, hexec]
      exact hd

/-- A system that mirrors every step mirrors the runs. -/
theorem execAll_map {Cfg' Act' : Type*} {S' : System Cfg' Act'} {f : Cfg → Cfg'} {g : Act → Act'}
    (hexec : ∀ c a c', S.exec c a = some c' → S'.exec (f c) (g a) = some (f c')) {c d : Cfg}
    {as : List Act} (h : S.execAll c as = some d) : S'.execAll (f c) (as.map g) = some (f d) := by
  induction as generalizing c with
  | nil => exact congrArg (Option.map f) h
  | cons a as ih =>
      obtain ⟨c', hstep, hrest⟩ := Option.bind_eq_some_iff.mp h
      rw [List.map_cons, execAll, hexec c a c' hstep]
      exact ih hrest

/-- The configurations that actions lead through, from the first to the last. -/
def passed (S : System Cfg Act) : Cfg → List Act → List Cfg
  | c, [] => [c]
  | c, a :: as => c :: ((S.exec c a).map fun c' => S.passed c' as).getD []

/-- The rule for invariants that look back: what holds at the beginning, and is
preserved by every admitted action when the past is longer by the configuration
the action leads to, holds of a run and of all that it has passed. -/
theorem Run.history {I : List Cfg → Cfg → Prop} {c c' : Cfg} {as : List Act}
    (hrun : S.Run G c as c') (hinit : I [c] c)
    (hstep : ∀ past c a c', c ∈ past → I past c → G c a → S.exec c a = some c' →
      I (past ++ [c']) c') : I (S.passed c as) c' := by
  have hlonger (before : List Cfg) (hc : I (before ++ [c]) c) :
      I (before ++ S.passed c as) c' := by
    clear hinit
    induction hrun generalizing before with
    | nil => exact hc
    | @cons c d e a as hguard hexec _ ih =>
        have hd :=
          hstep _ c a d (List.mem_append_right _ (List.mem_singleton_self c)) hc hguard hexec
        rw [passed, hexec, Option.map_some, Option.getD_some]
        have hrest := ih (before ++ [c]) hd
        rwa [List.append_assoc, List.singleton_append] at hrest
  exact hlonger [] hinit

theorem Reach.init {c : Cfg} (h : S.init c) : S.Reach G c := ⟨c, [], h, .nil c⟩

theorem Reach.run {c c' : Cfg} {as : List Act} (h : S.Reach G c) (hrun : S.Run G c as c') :
    S.Reach G c' := by
  obtain ⟨c₀, bs, hinit, hbs⟩ := h
  exact ⟨c₀, bs ++ as, hinit, hbs.append hrun⟩

theorem Reach.step {c c' : Cfg} {a : Act} (h : S.Reach G c) (hguard : G c a)
    (hexec : S.exec c a = some c') : S.Reach G c' :=
  h.run (.cons hguard hexec (.nil c'))

/-- What every admitted action preserves, every run preserves. -/
theorem Run.invariant {I : Cfg → Prop} {c c' : Cfg} {as : List Act} (hrun : S.Run G c as c')
    (hstep : ∀ c a c', I c → G c a → S.exec c a = some c' → I c') (hc : I c) : I c' := by
  induction hrun with
  | nil => exact hc
  | cons hguard hexec _ ih => exact ih (hstep _ _ _ hc hguard hexec)

/-- The invariant rule: what holds initially and is preserved by every
admitted action holds in every configuration reached. -/
theorem Reach.invariant {I : Cfg → Prop} {c : Cfg} (hreach : S.Reach G c)
    (hinit : ∀ c, S.init c → I c)
    (hstep : ∀ c a c', I c → G c a → S.exec c a = some c' → I c') : I c := by
  obtain ⟨c₀, as, h₀, hrun⟩ := hreach
  exact hrun.invariant hstep (hinit c₀ h₀)

end System

end PureplayIngest.Lib
