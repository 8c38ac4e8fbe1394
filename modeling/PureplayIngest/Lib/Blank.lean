import Mathlib.Data.List.DropRight
import Mathlib.Data.List.ReduceOption

/-!
Texts up to blanks: without those at both ends, and with a single space for
every run of them.

The question answered here is where blanks may be inserted without changing a
text up to blanks: anywhere but between two characters that are none.
-/

namespace PureplayIngest.Lib

section

variable {α : Type} (blank : α → Bool) (space : α)

def trim (text : List α) : List α := (text.dropWhile blank).rdropWhile blank

/-- What follows a blank, or what does not, with one space for every run of blanks. -/
def collapseFrom : Bool → List α → List α
  | _, [] => []
  | afterBlank, a :: text =>
      if blank a then
        if afterBlank then collapseFrom true text else space :: collapseFrom true text
      else a :: collapseFrom false text

def collapse (text : List α) : List α := collapseFrom blank space false text

/-- Before the first word, inside a word, or after one. -/
inductive Place
  | start | word | gap
  deriving DecidableEq

/-- The words that are left to write from a place on, with one space between two words. -/
def joinWords : Place → List α → List α
  | _, [] => []
  | .start, a :: text => if blank a then joinWords .start text else a :: joinWords .word text
  | .word, a :: text => if blank a then joinWords .gap text else a :: joinWords .word text
  | .gap, a :: text => if blank a then joinWords .gap text else space :: a :: joinWords .word text

end

variable {α : Type} {blank : α → Bool} {space a : α} {text blanks : List α}

theorem trim_eq_nil_iff : trim blank text = [] ↔ ∀ a ∈ text, blank a = true := by
  rw [trim, List.rdropWhile_eq_nil_iff]
  constructor
  · intro h a ha
    rw [← List.takeWhile_append_dropWhile (p := blank) (l := text)] at ha
    exact (List.mem_append.mp ha).elim List.mem_takeWhile_imp (h a)
  · exact fun h a ha => h a ((List.dropWhile_suffix blank).subset ha)

theorem eq_of_trim_eq (h : trim blank text = text) :
    text.dropWhile blank = text ∧ text.rdropWhile blank = text := by
  have hle : text.length ≤ (text.dropWhile blank).length := by
    rw [trim] at h
    exact (congrArg List.length h).ge.trans (List.rdropWhile_prefix blank _).length_le
  have hdrop : text.dropWhile blank = text :=
    (List.dropWhile_suffix blank).eq_of_length (Nat.le_antisymm (List.length_dropWhile_le ..) hle)
  rw [trim, hdrop] at h
  exact ⟨hdrop, h⟩

/-- Blanks around a text that has none at its ends are trimmed. -/
theorem trim_blanks {before after : List α} (hbefore : ∀ a ∈ before, blank a = true)
    (hafter : ∀ a ∈ after, blank a = true) (htrim : trim blank text = text) :
    trim blank (before ++ (text ++ after)) = text := by
  obtain ⟨hdrop, hrdrop⟩ := eq_of_trim_eq htrim
  rw [trim, List.dropWhile_append_of_pos hbefore]
  have hreverse : ∀ a ∈ after.reverse, blank a = true := fun a ha =>
    hafter a (List.mem_reverse.mp ha)
  cases text with
  | nil => rw [List.nil_append, ← List.append_nil after, List.dropWhile_append_of_pos hafter]; rfl
  | cons a text =>
      have ha : ¬ blank a = true := List.dropWhile_eq_self_iff.mp hdrop (Nat.succ_pos _)
      rw [List.cons_append, List.dropWhile_cons_of_neg ha, ← List.cons_append, List.rdropWhile,
        List.reverse_append, List.dropWhile_append_of_pos hreverse]
      exact hrdrop

theorem length_trim_le (text : List α) : (trim blank text).length ≤ text.length :=
  (List.rdropWhile_prefix blank _).length_le.trans (List.length_dropWhile_le ..)

/-- The end of a text stays if it has no blank at either end. -/
theorem exists_trim_append {b : α} (hb : blank b = false) (ha : blank a = false)
    (before middle : List α) :
    ∃ rest, trim blank (before ++ b :: (middle ++ [a])) = rest ++ b :: (middle ++ [a]) := by
  have hdrop : ∃ rest, (before ++ b :: (middle ++ [a])).dropWhile blank =
      rest ++ b :: (middle ++ [a]) := by
    induction before with
    | nil => exact ⟨[], List.dropWhile_cons_of_neg (by simp [hb])⟩
    | cons c before ih =>
        rw [List.cons_append]
        cases hc : blank c with
        | true =>
            rw [List.dropWhile_cons_of_pos hc]
            exact ih
        | false => exact ⟨c :: before, List.dropWhile_cons_of_neg (by simp [hc])⟩
  obtain ⟨rest, hrest⟩ := hdrop
  refine ⟨rest, ?_⟩
  rw [trim, hrest, ← List.cons_append, ← List.append_assoc,
    List.rdropWhile_concat_neg _ _ _ (by simp [ha])]

theorem joinWords_blank (ha : blank a = true) {p : Place} (hp : p ≠ .word) :
    joinWords blank space p (a :: text) = joinWords blank space p text := by
  cases p with
  | start => rw [joinWords, if_pos ha]
  | word => exact absurd rfl hp
  | gap => rw [joinWords, if_pos ha]

theorem joinWords_word_blank (ha : blank a = true) :
    joinWords blank space .word (a :: text) = joinWords blank space .gap text := by
  rw [joinWords, if_pos ha]

theorem joinWords_char (ha : blank a = false) (p : Place) :
    joinWords blank space p (a :: text) =
      if p = .gap then space :: a :: joinWords blank space .word text
      else a :: joinWords blank space .word text := by
  cases p <;> simp [joinWords, ha]

theorem joinWords_blanks (h : ∀ a ∈ blanks, blank a = true) (p : Place) :
    joinWords blank space p blanks = [] := by
  induction blanks generalizing p with
  | nil => rw [joinWords]
  | cons a blanks ih =>
      have ha := h a List.mem_cons_self
      have hrest := ih fun b hb => h b (List.mem_cons_of_mem a hb)
      cases p <;> rw [joinWords, if_pos ha, hrest]

theorem joinWords_append_blanks (h : ∀ a ∈ blanks, blank a = true) (p : Place) :
    joinWords blank space p (text ++ blanks) = joinWords blank space p text := by
  induction text generalizing p with
  | nil => rw [List.nil_append, joinWords_blanks h, joinWords]
  | cons a text ih => cases p <;> simp only [List.cons_append, joinWords, ih]

theorem joinWords_dropWhile (text : List α) :
    joinWords blank space .start (text.dropWhile blank) = joinWords blank space .start text := by
  induction text with
  | nil => rfl
  | cons a text ih =>
      cases ha : blank a with
      | true => rw [List.dropWhile_cons_of_pos ha, ih, joinWords, if_pos ha]
      | false => rw [List.dropWhile_cons_of_neg (by simp [ha])]

theorem joinWords_trim (text : List α) :
    joinWords blank space .start (trim blank text) = joinWords blank space .start text := by
  have hblanks : ∀ a ∈ (text.dropWhile blank).rtakeWhile blank, blank a = true :=
    fun _ ha => List.mem_rtakeWhile_imp ha
  rw [← joinWords_dropWhile text, trim, ← joinWords_append_blanks hblanks,
    List.rdropWhile_append_rtakeWhile]

/-- A text that does not end in a blank. -/
theorem collapseFrom_eq (h : ∀ hne : text ≠ [], ¬ blank (text.getLast hne) = true) :
    joinWords blank space .word text = collapseFrom blank space false text ∧
      (text ≠ [] →
        joinWords blank space .gap text = space :: collapseFrom blank space true text) := by
  induction text with
  | nil => exact ⟨by rw [joinWords, collapseFrom], fun hne => absurd rfl hne⟩
  | cons a text ih =>
      by_cases hrest : text = []
      · subst hrest
        have ha : blank a = false := Bool.eq_false_iff.mpr (h (List.cons_ne_nil a []))
        simp only [joinWords, collapseFrom, ha, Bool.false_eq_true, if_false]
        exact ⟨trivial, fun _ => trivial⟩
      · obtain ⟨hword, hgap⟩ := ih fun hne => List.getLast_cons hne ▸ h (List.cons_ne_nil a text)
        simp only [joinWords, collapseFrom, hword, hgap hrest]
        cases ha : blank a with
        | true => exact ⟨rfl, fun _ => rfl⟩
        | false => exact ⟨rfl, fun _ => rfl⟩

/-- Up to blanks, a text is the words it consists of. -/
theorem collapse_trim (text : List α) :
    collapse blank space (trim blank text) = joinWords blank space .start text := by
  have hlast : ∀ hne : trim blank text ≠ [], ¬ blank ((trim blank text).getLast hne) = true :=
    fun hne => List.rdropWhile_last_not blank _ hne
  obtain ⟨tail, htail⟩ : trim blank text <+: text.dropWhile blank := List.rdropWhile_prefix blank _
  rw [← joinWords_trim, collapse, ← (collapseFrom_eq hlast).1]
  cases htrim : trim blank text with
  | nil => rfl
  | cons a rest =>
      have hidem := List.dropWhile_idempotent blank text
      rw [← htail, htrim, List.cons_append] at hidem
      have ha : ¬ blank a = true := List.dropWhile_eq_self_iff.mp hidem (Nat.succ_pos _)
      rw [joinWords, joinWords, if_neg ha, if_neg ha]

/-! ### Blanks put into a text -/

/-- The next character is none, once the blanks that were put in are passed. -/
def Meets (blank : α → Bool) (text : List (Option α)) : Prop :=
  ∃ n b after, text = List.replicate n none ++ some b :: after ∧ blank b = false

/-- Blanks were put in here, and such a character follows. -/
def Cut (blank : α → Bool) (text : List (Option α)) : Prop :=
  ∃ rest, text = none :: rest ∧ Meets blank rest

/-- Blanks were put in, at `none`, directly between two characters that are none. -/
def Glued (blank : α → Bool) (text : List (Option α)) : Prop :=
  ∃ before a n b after,
    text = before ++ some a :: (List.replicate (n + 1) none ++ some b :: after) ∧
      blank a = false ∧ blank b = false

section

variable {text : List (Option α)}

theorem meets_nil : ¬ Meets blank [] := by
  rintro ⟨n, b, after, h, _⟩
  exact absurd h.symm (by simp)

theorem meets_none : Meets blank (none :: text) ↔ Meets blank text := by
  constructor
  · rintro ⟨n, b, after, h, hb⟩
    cases n with
    | zero => exact absurd h (by simp)
    | succ n => exact ⟨n, b, after, (List.cons.inj h).2, hb⟩
  · rintro ⟨n, b, after, rfl, hb⟩
    exact ⟨n + 1, b, after, rfl, hb⟩

theorem meets_some : Meets blank (some a :: text) ↔ blank a = false := by
  constructor
  · rintro ⟨n, b, after, h, hb⟩
    cases n with
    | zero => exact Option.some.inj (List.cons.inj h).1 ▸ hb
    | succ n => exact absurd h (by simp [List.replicate_succ])
  · exact fun ha => ⟨0, a, text, rfl, ha⟩

theorem cut_nil : ¬ Cut blank [] := by
  rintro ⟨rest, h, _⟩
  exact List.cons_ne_nil _ _ h.symm

theorem cut_none : Cut blank (none :: text) ↔ Meets blank text := by
  constructor
  · rintro ⟨rest, h, hmeets⟩
    exact (List.cons.inj h).2 ▸ hmeets
  · exact fun hmeets => ⟨text, rfl, hmeets⟩

theorem cut_some : ¬ Cut blank (some a :: text) := by
  rintro ⟨rest, h, _⟩
  exact Option.some_ne_none a (List.cons.inj h).1

theorem glued_nil : ¬ Glued blank [] := by
  rintro ⟨before, a, n, b, after, h, _⟩
  exact absurd h.symm (by simp)

theorem glued_none : Glued blank (none :: text) ↔ Glued blank text := by
  constructor
  · rintro ⟨before, a, n, b, after, h, hab⟩
    cases before with
    | nil => exact absurd h (by simp)
    | cons x before => exact ⟨before, a, n, b, after, (List.cons.inj h).2, hab⟩
  · rintro ⟨before, a, n, b, after, rfl, hab⟩
    exact ⟨none :: before, a, n, b, after, rfl, hab⟩

theorem glued_some : Glued blank (some a :: text) ↔
    (blank a = false ∧ Cut blank text) ∨ Glued blank text := by
  constructor
  · rintro ⟨before, a', n, b, after, h, ha, hb⟩
    cases before with
    | nil =>
        obtain ⟨heq, rfl⟩ := List.cons.inj h
        exact .inl ⟨Option.some.inj heq ▸ ha, _, rfl, n, b, after, rfl, hb⟩
    | cons x before => exact .inr ⟨before, a', n, b, after, (List.cons.inj h).2, ha, hb⟩
  · rintro (⟨ha, _, rfl, n, b, after, rfl, hb⟩ | ⟨before, a', n, b, after, rfl, hab⟩)
    · exact ⟨[], a, n, b, after, rfl, ha, hb⟩
    · exact ⟨some a :: before, a', n, b, after, rfl, hab⟩

end

/-- The text with the blank given at every place where one was put in. -/
def fill (put : α) (text : List (Option α)) : List α := text.map (·.getD put)

/-- The words stay the same unless they are cut in two. The three parts are for
texts that go on outside a word, inside one, and inside one that a blank has
just been put into. -/
theorem joinWords_fill_iff {put : α} (hspace : blank space = true) (hput : blank put = true)
    (text : List (Option α)) :
    (∀ p, p ≠ .word → (joinWords blank space p (fill put text) =
        joinWords blank space p text.reduceOption ↔ ¬ Glued blank text)) ∧
      (joinWords blank space .word (fill put text) =
          joinWords blank space .word text.reduceOption ↔
        ¬ (Cut blank text ∨ Glued blank text)) ∧
      (joinWords blank space .gap (fill put text) =
          joinWords blank space .word text.reduceOption ↔
        ¬ (Meets blank text ∨ Glued blank text)) := by
  induction text with
  | nil =>
      refine ⟨fun p _ => iff_of_true ?_ glued_nil, iff_of_true rfl ?_, iff_of_true rfl ?_⟩
      · cases p <;> rfl
      · exact not_or.mpr ⟨cut_nil, glued_nil⟩
      · exact not_or.mpr ⟨meets_nil, glued_nil⟩
  | cons x text ih =>
      obtain ⟨hout, hword, hcut⟩ := ih
      cases x with
      -- Filled, the position is one more blank and moves a word into its gap.
      | none =>
          have hfill : fill put (none :: text) = put :: fill put text := rfl
          rw [hfill, List.reduceOption_cons_of_none, glued_none, cut_none, meets_none,
            joinWords_word_blank hput, joinWords_blank hput (p := .gap) nofun]
          refine ⟨fun p hp => ?_, hcut, hcut⟩
          rw [joinWords_blank hput hp]
          exact hout p hp
      | some a =>
          have hfill : fill put (some a :: text) = a :: fill put text := rfl
          rw [hfill, List.reduceOption_cons_of_some, meets_some, glued_some]
          simp only [cut_some, false_or]
          cases ha : blank a with
          | true =>
              rw [joinWords_word_blank ha, joinWords_word_blank ha,
                joinWords_blank ha (p := .gap) nofun]
              simp only [Bool.true_eq_false, false_and, false_or]
              refine ⟨fun p hp => ?_, hout .gap nofun, hout .gap nofun⟩
              rw [joinWords_blank ha hp, joinWords_blank ha hp]
              exact hout p hp
          | false =>
              -- Behind a gap the filled text has a space where the other goes on with the word.
              have hne : space ≠ a := fun heq => Bool.false_ne_true (ha ▸ heq ▸ hspace)
              simp only [joinWords_char ha, true_and, true_or, not_true_eq_false]
              refine ⟨fun p hp => ?_, ?_, iff_of_false ?_ not_false⟩
              · rw [← hword]
                split <;> simp
              · rw [← hword]
                simp
              · exact fun h => hne (List.cons.inj h).1

/-- Blanks put into a text do not change it up to blanks, unless they are
directly between two characters that are none. -/
theorem collapse_fill_iff {put : α} (hspace : blank space = true) (hput : blank put = true)
    (text : List (Option α)) :
    collapse blank space (trim blank (fill put text)) =
      collapse blank space (trim blank text.reduceOption) ↔ ¬ Glued blank text := by
  rw [collapse_trim, collapse_trim]
  exact (joinWords_fill_iff hspace hput text).1 .start nofun

theorem trim_fill_eq_nil_iff {put : α} (hput : blank put = true) (text : List (Option α)) :
    trim blank (fill put text) = [] ↔ trim blank text.reduceOption = [] := by
  rw [trim_eq_nil_iff, trim_eq_nil_iff]
  constructor
  · intro h a ha
    exact h a (List.mem_map.mpr ⟨some a, List.reduceOption_mem_iff.mp ha, rfl⟩)
  · intro h a ha
    obtain ⟨x, hx, rfl⟩ := List.mem_map.mp ha
    cases x with
    | none => exact hput
    | some a => exact h a (List.reduceOption_mem_iff.mpr hx)

end PureplayIngest.Lib
