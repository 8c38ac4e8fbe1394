import PureplayIngest.Lib.Replacement
import PureplayIngest.Shared.PiiRedact

/-!
What `EMAIL_REGEX` matches, and that none of it is left in a redacted body.

The regular expression is stated here without regard to how a match is
searched for; the search finds one wherever there is one. What is put in the
place of a match begins and ends with a bracket, and a bracket is in no match.
-/

namespace PureplayIngest.Shared

open Domain JsonText Lib

/-- `m` is `name@domain.top`, where the name may be empty. -/
structure IsAddressTail (m name domain top : List Char) : Prop where
  eq : m = name ++ '@' :: (domain ++ '.' :: top)
  name_chars : ∀ ch ∈ name, isEmailRegexLocal ch = true
  domain_ne : domain ≠ []
  domain_chars : ∀ ch ∈ domain, isEmailRegexDomain ch = true
  top_length : 2 ≤ top.length
  top_chars : ∀ ch ∈ top, ch.isAlpha = true

/-- The texts `EMAIL_REGEX` matches as a whole. -/
def MatchesEmailRegex (m : List Char) : Prop :=
  ∃ name domain top, IsAddressTail m name domain top ∧ name ≠ []

/-! ### The search finds a match where there is one -/

/-- `f` searches for `p*` with `next` after it. -/
structure Repeats (p : Char → Bool) (next f : List Char → Option ℕ) : Prop where
  next_nil : next [] = none
  nil : f [] = none
  cons : ∀ ch s, f (ch :: s) = (if p ch then (f s).map (· + 1) else none).or (next (ch :: s))

theorem repeats_matchDomain : Repeats isEmailRegexDomain matchTopLevel matchDomain :=
  ⟨rfl, rfl, fun _ _ => rfl⟩

theorem repeats_matchLocal : Repeats isEmailRegexLocal matchAt matchLocal :=
  ⟨rfl, rfl, fun _ _ => rfl⟩

theorem Repeats.isSome_iff {p : Char → Bool} {next f : List Char → Option ℕ} (h : Repeats p next f)
    {s : List Char} :
    (f s).isSome ↔ ∃ run t, s = run ++ t ∧ (∀ ch ∈ run, p ch = true) ∧ (next t).isSome := by
  constructor
  · intro hf
    induction s with
    | nil => simp [h.nil] at hf
    | cons ch s ih =>
        rw [h.cons, Option.isSome_or, Bool.or_eq_true] at hf
        obtain hf | hf := hf
        · split at hf
          · rename_i hch
            obtain ⟨run, t, rfl, hrun, ht⟩ := ih (by simpa using hf)
            exact ⟨ch :: run, t, rfl, List.forall_mem_cons.mpr ⟨hch, hrun⟩, ht⟩
          · exact absurd hf (by simp)
        · exact ⟨[], ch :: s, rfl, by simp, hf⟩
  · rintro ⟨run, t, rfl, hrun, ht⟩
    induction run with
    | nil =>
        cases t with
        | nil => simp [h.next_nil] at ht
        | cons ch t => rw [List.nil_append, h.cons, Option.isSome_or, ht, Bool.or_true]
    | cons ch run ih =>
        rw [List.forall_mem_cons] at hrun
        rw [List.cons_append, h.cons, if_pos hrun.1, Option.isSome_or, Option.isSome_map,
          ih hrun.2, Bool.true_or]

theorem matchTopLevel_isSome_iff {s : List Char} : (matchTopLevel s).isSome ↔
    ∃ top rest, s = '.' :: (top ++ rest) ∧ 2 ≤ top.length ∧ ∀ ch ∈ top, ch.isAlpha = true := by
  constructor
  · intro h
    unfold matchTopLevel at h
    split at h
    · rename_i s
      split at h
      · rename_i hlength
        exact ⟨s.takeWhile Char.isAlpha, s.dropWhile Char.isAlpha,
          by rw [List.takeWhile_append_dropWhile], hlength, List.all_eq_true.mp List.all_takeWhile⟩
      · exact absurd h (by simp)
    · exact absurd h (by simp)
  · rintro ⟨top, rest, rfl, hlength, hchars⟩
    have htake : top <+: (top ++ rest).takeWhile Char.isAlpha := by
      rw [List.takeWhile_append_of_pos hchars]
      exact List.prefix_append _ _
    rw [matchTopLevel, if_pos (hlength.trans htake.length_le)]
    rfl

theorem matchAt_isSome_iff {s : List Char} : (matchAt s).isSome ↔
    ∃ ch t, s = '@' :: ch :: t ∧ isEmailRegexDomain ch = true ∧ (matchDomain t).isSome := by
  constructor
  · intro h
    unfold matchAt at h
    split at h
    · rename_i ch t
      split at h
      · rename_i hch
        exact ⟨ch, t, rfl, hch, by simpa using h⟩
      · exact absurd h (by simp)
    · exact absurd h (by simp)
  · rintro ⟨ch, t, rfl, hch, ht⟩
    rw [matchAt, if_pos hch, Option.isSome_map, ht]

theorem matchLocal_isSome_iff {s : List Char} : (matchLocal s).isSome ↔
    ∃ tail rest name domain top, s = tail ++ rest ∧ IsAddressTail tail name domain top := by
  rw [repeats_matchLocal.isSome_iff]
  constructor
  · rintro ⟨name, t, rfl, hname, ht⟩
    obtain ⟨ch, t, rfl, hch, ht⟩ := matchAt_isSome_iff.mp ht
    obtain ⟨domain, t, rfl, hdomain, ht⟩ := repeats_matchDomain.isSome_iff.mp ht
    obtain ⟨top, rest, rfl, hlength, htop⟩ := matchTopLevel_isSome_iff.mp ht
    exact ⟨name ++ '@' :: (ch :: domain ++ '.' :: top), rest, name, ch :: domain, top, by simp,
      ⟨rfl, hname, List.cons_ne_nil _ _, List.forall_mem_cons.mpr ⟨hch, hdomain⟩, hlength, htop⟩⟩
  · rintro ⟨tail, rest, name, domain, top, rfl, h⟩
    obtain ⟨ch, domain', rfl⟩ := List.exists_cons_of_ne_nil h.domain_ne
    have hchars := List.forall_mem_cons.mp h.domain_chars
    refine ⟨name, '@' :: ch :: (domain' ++ '.' :: (top ++ rest)), by simp [h.eq], h.name_chars, ?_⟩
    refine matchAt_isSome_iff.mpr ⟨ch, _, rfl, hchars.1, ?_⟩
    refine repeats_matchDomain.isSome_iff.mpr ⟨domain', _, rfl, hchars.2, ?_⟩
    exact matchTopLevel_isSome_iff.mpr ⟨top, rest, rfl, h.top_length, h.top_chars⟩

theorem matchEmail_cons_isSome_iff {ch : Char} {s : List Char} :
    (matchEmail (ch :: s)).isSome ↔ isEmailRegexLocal ch = true ∧ (matchLocal s).isSome := by
  rw [matchEmail]
  split
  · rename_i hch
    rw [Option.isSome_map, and_iff_right hch]
  · rename_i hch
    exact iff_of_false (by simp) fun h => hch h.1

theorem MatchesEmailRegex.matchEmail {m s : List Char} (h : MatchesEmailRegex m) (hm : m <+: s) :
    (matchEmail s).isSome := by
  obtain ⟨name, domain, top, htail, hne⟩ := h
  obtain ⟨ch, name', rfl⟩ := List.exists_cons_of_ne_nil hne
  obtain ⟨s, rfl⟩ := hm
  have hchars := List.forall_mem_cons.mp htail.name_chars
  have hrest : IsAddressTail (name' ++ '@' :: (domain ++ '.' :: top)) name' domain top :=
    ⟨rfl, hchars.2, htail.domain_ne, htail.domain_chars, htail.top_length, htail.top_chars⟩
  rw [htail.eq, List.cons_append, List.cons_append]
  exact matchEmail_cons_isSome_iff.mpr
    ⟨hchars.1, matchLocal_isSome_iff.mpr ⟨_, s, name', domain, top, rfl, hrest⟩⟩

/-! ### How far a match reaches -/

/-- The characters that a match can have. -/
def isEmailChar (ch : Char) : Bool := isEmailRegexLocal ch || ch = '@'

theorem isEmailChar_of_local {ch : Char} (h : isEmailRegexLocal ch = true) :
    isEmailChar ch = true := by
  rw [isEmailChar, h, Bool.true_or]

theorem isEmailChar_of_domain {ch : Char} (h : isEmailRegexDomain ch = true) :
    isEmailChar ch = true := by
  simp only [isEmailRegexDomain, isEmailChar, isEmailRegexLocal, Bool.or_eq_true,
    decide_eq_true_eq, List.mem_cons] at *
  tauto

theorem isEmailChar_of_alpha {ch : Char} (h : ch.isAlpha = true) : isEmailChar ch = true := by
  simp only [isEmailChar, isEmailRegexLocal, Char.isAlphanum, h, Bool.true_or]

theorem Repeats.stopsAt {p : Char → Bool} {next f : List Char → Option ℕ} (h : Repeats p next f)
    {stop : Char} (hp : p stop = false) (hnext : StopsAt next stop) : StopsAt f stop := by
  intro s t
  induction s with
  | nil =>
      have hstop : next (stop :: t) = none := (hnext [] t).trans h.next_nil
      rw [List.nil_append, h.cons, hp, hstop, h.nil]
      rfl
  | cons ch s ih =>
      have hfront := hnext (ch :: s) t
      rw [List.cons_append] at hfront ⊢
      rw [h.cons, h.cons, ih, hfront]

theorem Repeats.le_length {p : Char → Bool} {next f : List Char → Option ℕ} (h : Repeats p next f)
    (hnext : ∀ s n, next s = some n → n ≤ s.length) (s : List Char) (n : ℕ) (hf : f s = some n) :
    n ≤ s.length := by
  induction s generalizing n with
  | nil => simp [h.nil] at hf
  | cons ch s ih =>
      rw [h.cons, Option.or_eq_some_iff] at hf
      obtain hf | ⟨_, hf⟩ := hf
      · split at hf
        · obtain ⟨k, hk, rfl⟩ := Option.map_eq_some_iff.mp hf
          exact Nat.succ_le_succ (ih k hk)
        · exact absurd hf (by simp)
      · exact hnext _ _ hf

theorem takeWhile_stop {p : Char → Bool} {stop : Char} (hp : p stop = false) (s t : List Char) :
    (s ++ stop :: t).takeWhile p = s.takeWhile p := by
  induction s with
  | nil => simp [hp]
  | cons ch s ih => rw [List.cons_append, List.takeWhile_cons, List.takeWhile_cons, ih]

section

variable {stop : Char} (hstop : isEmailChar stop = false)

include hstop

theorem not_local_of_stop : isEmailRegexLocal stop = false :=
  Bool.eq_false_iff.mpr fun h => absurd (isEmailChar_of_local h) (Bool.eq_false_iff.mp hstop)

theorem not_domain_of_stop : isEmailRegexDomain stop = false :=
  Bool.eq_false_iff.mpr fun h => absurd (isEmailChar_of_domain h) (Bool.eq_false_iff.mp hstop)

theorem ne_of_stop {ch : Char} (hch : isEmailChar ch = true) : stop ≠ ch := by
  rintro rfl
  exact absurd hch (Bool.eq_false_iff.mp hstop)

theorem stopsAt_matchTopLevel : StopsAt matchTopLevel stop := by
  have halpha : stop.isAlpha = false :=
    Bool.eq_false_iff.mpr fun h => absurd (isEmailChar_of_alpha h) (Bool.eq_false_iff.mp hstop)
  intro s t
  cases s with
  | nil =>
      have hdot : stop ≠ '.' := ne_of_stop hstop (by decide)
      simp [matchTopLevel, hdot]
  | cons ch s =>
      by_cases hdot : ch = '.'
      · subst hdot
        simp only [List.cons_append, matchTopLevel, takeWhile_stop halpha]
      · simp [matchTopLevel, hdot]

theorem stopsAt_matchAt : StopsAt matchAt stop := by
  have hdomain := repeats_matchDomain.stopsAt (not_domain_of_stop hstop)
    (stopsAt_matchTopLevel hstop)
  have hat : stop ≠ '@' := ne_of_stop hstop (by decide)
  intro s t
  cases s with
  | nil => simp [matchAt, hat]
  | cons ch s =>
      by_cases hch : ch = '@'
      · subst hch
        cases s with
        | nil => simp [matchAt, not_domain_of_stop hstop]
        | cons ch s => simp only [List.cons_append, matchAt, hdomain s t]
      · simp [matchAt, hch]

theorem stopsAt_matchLocal : StopsAt matchLocal stop :=
  repeats_matchLocal.stopsAt (not_local_of_stop hstop) (stopsAt_matchAt hstop)

theorem stopsAt_matchEmail : StopsAt matchEmail stop := by
  intro s t
  cases s with
  | nil => simp [matchEmail, not_local_of_stop hstop]
  | cons ch s => simp only [List.cons_append, matchEmail, stopsAt_matchLocal hstop s t]

end

theorem matchTopLevel_le (s : List Char) (n : ℕ) (h : matchTopLevel s = some n) :
    n ≤ s.length := by
  unfold matchTopLevel at h
  split at h
  · rename_i s
    split at h
    · obtain rfl := Option.some.inj h
      have := (List.takeWhile_sublist (p := Char.isAlpha) (l := s)).length_le
      rw [List.length_cons]
      omega
    · exact absurd h (by simp)
  · exact absurd h (by simp)

theorem matchAt_le (s : List Char) (n : ℕ) (h : matchAt s = some n) : n ≤ s.length := by
  unfold matchAt at h
  split at h
  · split at h
    · obtain ⟨k, hk, rfl⟩ := Option.map_eq_some_iff.mp h
      exact Nat.add_le_add_right (repeats_matchDomain.le_length matchTopLevel_le _ k hk) 2
    · exact absurd h (by simp)
  · exact absurd h (by simp)

theorem bounded_matchEmail : Bounded matchEmail := by
  intro s n h
  cases s with
  | nil => simp [matchEmail] at h
  | cons ch s =>
      rw [matchEmail] at h
      split at h
      · obtain ⟨k, hk, rfl⟩ := Option.map_eq_some_iff.mp h
        exact ⟨Nat.succ_pos k,
          Nat.succ_le_succ (repeats_matchLocal.le_length matchAt_le _ k hk)⟩
      · exact absurd h (by simp)

/-! ### No match is left -/

theorem IsAddressTail.chars {m name domain top : List Char} (h : IsAddressTail m name domain top) :
    ∀ ch ∈ m, isEmailChar ch = true := by
  rw [h.eq]
  simp only [List.forall_mem_append, List.forall_mem_cons]
  refine ⟨fun ch hch => ?_, by decide, fun ch hch => ?_, by decide, fun ch hch => ?_⟩
  · exact isEmailChar_of_local (h.name_chars ch hch)
  · exact isEmailChar_of_domain (h.domain_chars ch hch)
  · exact isEmailChar_of_alpha (h.top_chars ch hch)

theorem MatchesEmailRegex.chars {m : List Char} (h : MatchesEmailRegex m) :
    ∀ ch ∈ m, isEmailChar ch = true := by
  obtain ⟨_, _, _, htail, _⟩ := h
  exact htail.chars

theorem MatchesEmailRegex.at_mem {m : List Char} (h : MatchesEmailRegex m) : '@' ∈ m := by
  obtain ⟨name, domain, top, htail, _⟩ := h
  rw [htail.eq]
  exact List.mem_append_right _ List.mem_cons_self

theorem replaceEmailsFrom_eq (n : ℕ) (s : List Char) :
    replaceEmailsFrom n s = replaceFrom matchEmail "[REDACTED]".toList n s := by
  induction n, s using replaceEmailsFrom.induct with
  | case1 n => rw [replaceEmailsFrom, replaceFrom_nil]
  | case2 n ch s ih => exact ih
  | case3 ch s n h ih => rw [replaceFrom_found h, ← ih, replaceEmailsFrom, h]
  | case4 ch s h ih => rw [replaceFrom_none h, ← ih, replaceEmailsFrom, h]

theorem no_match_replaceEmails {m : List Char} (hm : MatchesEmailRegex m) (json : List Char) :
    ¬ m <:+: replaceEmails json := by
  have hmarks : "[REDACTED]".toList = '[' :: "REDACTED".toList ++ [']'] := rfl
  rw [replaceEmails, replaceEmailsFrom_eq]
  refine not_infix_replaceFrom hmarks (fun m s h => h.matchEmail) (fun m h hmem => ?_)
    (fun m h hmem => ?_) (fun m h hmem => ?_) (fun h => ?_) 0 json hm
  · exact absurd (h.chars _ hmem) (by decide)
  · exact absurd (h.chars _ hmem) (by decide)
  · exact absurd (hmem.subset h.at_mem) (by decide)
  · exact List.not_mem_nil h.at_mem

theorem no_address_survives (payload : List (String × Json)) :
    ¬ ∃ m, MatchesEmailRegex m ∧ m <:+: (redactPii (.obj payload)).toList := by
  rintro ⟨m, hm, hinfix⟩
  rw [redactPii, String.toList_ofList] at hinfix
  exact no_match_replaceEmails hm _ hinfix

end PureplayIngest.Shared
