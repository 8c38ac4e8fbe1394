import Mathlib.Data.List.DropRight
import PureplayIngest.Shared.JsonStringify

/-!
How far a scan gets in a text.

`JSON.parse` goes through a text from left to right, so a text is taken apart
in the same way: `ReadsWhen` says of one scan on what condition it comes to the
end of its part, and that it fails otherwise. The numbers that
`JSON.stringify` writes are always read to their end.
-/

namespace PureplayIngest.Shared.JsonText

open Domain

/-- If `P`, the scan stops in front of `s`, and otherwise it fails. -/
def ReadsWhen {α : Type} (P : Prop) (result : Option (α × List Char)) (s : List Char) : Prop :=
  (P → ∃ a, result = some (a, s)) ∧ (¬ P → result = none)

section

variable {α β : Type} {P Q : Prop} {result : Option (α × List Char)} {s t : List Char}

theorem ReadsWhen.of_eq {a : α} (h : result = some (a, s)) : ReadsWhen True result s :=
  ⟨fun _ => ⟨a, h⟩, fun hfalse => absurd trivial hfalse⟩

theorem ReadsWhen.congr (h : ReadsWhen P result s) (hPQ : P ↔ Q) : ReadsWhen Q result s :=
  propext hPQ ▸ h

theorem ReadsWhen.map (h : ReadsWhen P result s) (f : α → β) :
    ReadsWhen P (result.map fun (a, s) => (f a, s)) s := by
  constructor
  · intro hP
    obtain ⟨a, ha⟩ := h.1 hP
    exact ⟨f a, by rw [ha]; rfl⟩
  · intro hP
    rw [h.2 hP]
    rfl

theorem ReadsWhen.bind (h : ReadsWhen P result s) {next : α × List Char → Option (β × List Char)}
    (hnext : ∀ a, ReadsWhen Q (next (a, s)) t) : ReadsWhen (P ∧ Q) (result.bind next) t := by
  constructor
  · rintro ⟨hP, hQ⟩
    obtain ⟨a, ha⟩ := h.1 hP
    obtain ⟨b, hb⟩ := (hnext a).1 hQ
    exact ⟨b, by rw [ha, Option.bind_some, hb]⟩
  · intro hPQ
    by_cases hP : P
    · obtain ⟨a, ha⟩ := h.1 hP
      rw [ha, Option.bind_some]
      exact (hnext a).2 fun hQ => hPQ ⟨hP, hQ⟩
    · rw [h.2 hP]
      rfl

theorem ReadsWhen.isSome_iff (h : ReadsWhen P result s) : result.isSome ↔ P := by
  constructor
  · intro hresult
    by_contra hP
    rw [h.2 hP] at hresult
    exact absurd hresult (by simp)
  · intro hP
    obtain ⟨a, ha⟩ := h.1 hP
    rw [ha]
    rfl

end

/-! ### Numbers -/

/-- What may come after a number. -/
def EndsNumber (s : List Char) : Prop :=
  ∀ ch ∈ s.head?, ch.isDigit = false ∧ ch ≠ '.' ∧ ch ≠ 'e' ∧ ch ≠ 'E'

structure IsDigits (digits : List Char) : Prop where
  ne_nil : digits ≠ []
  isDigit : ∀ ch ∈ digits, ch.isDigit = true

theorem isDigits_zero : IsDigits ['0'] :=
  ⟨List.cons_ne_nil _ _, List.forall_mem_singleton.mpr rfl⟩

theorem scanDigits_append {digits s : List Char} (h : IsDigits digits)
    (hs : ∀ ch ∈ s.head?, ch.isDigit = false) : scanDigits (digits ++ s) = some (digits, s) := by
  have hstop : s.takeWhile Char.isDigit = [] ∧ s.dropWhile Char.isDigit = s := by
    cases s with
    | nil => exact ⟨rfl, rfl⟩
    | cons ch s =>
        have hch := hs ch rfl
        simp [hch]
  have htake : (digits ++ s).takeWhile Char.isDigit = digits := by
    rw [List.takeWhile_append_of_pos h.isDigit, hstop.1, List.append_nil]
  have hdrop : (digits ++ s).dropWhile Char.isDigit = s := by
    rw [List.dropWhile_append_of_pos h.isDigit, hstop.2]
  rw [scanDigits, htake, hdrop, if_neg h.ne_nil]

theorem isDigits_toDigits (n : ℕ) : IsDigits (Nat.toDigits 10 n) :=
  ⟨Nat.toDigits_ne_nil, fun _ hch => Nat.isDigit_of_mem_toDigits (by omega) (by omega) hch⟩

/-- The digits of a positive number begin with a nonzero one. -/
theorem head_toDigits {n : ℕ} (h : 0 < n) : (Nat.toDigits 10 n).head? ≠ some '0' := by
  induction n using Nat.strong_induction_on with
  | h n ih =>
      by_cases hn : n < 10
      · rw [Nat.toDigits_of_lt_base hn, List.head?_cons, ne_eq, Option.some_inj,
          Nat.digitChar_eq_zero]
        omega
      · rw [Nat.toDigits_of_base_le (by omega) (by omega),
          List.head?_append_of_ne_nil _ Nat.toDigits_ne_nil]
        exact ih (n / 10) (by omega) (by omega)

theorem IsDigits.append_zeros {digits : List Char} (h : IsDigits digits) (n : ℕ) :
    IsDigits (digits ++ List.replicate n '0') := by
  refine ⟨by simp [h.ne_nil], fun ch hch => ?_⟩
  obtain hch | hch := List.mem_append.mp hch
  · exact h.isDigit ch hch
  · rw [List.eq_of_mem_replicate hch]
    rfl

theorem IsDigits.zeros_append {digits : List Char} (h : IsDigits digits) (n : ℕ) :
    IsDigits (List.replicate n '0' ++ digits) := by
  refine ⟨by simp [h.ne_nil], fun ch hch => ?_⟩
  obtain hch | hch := List.mem_append.mp hch
  · rw [List.eq_of_mem_replicate hch]
    rfl
  · exact h.isDigit ch hch

theorem IsDigits.take {digits : List Char} (h : IsDigits digits) {n : ℕ} (hn : 0 < n) :
    IsDigits (digits.take n) := by
  refine ⟨?_, fun ch hch => h.isDigit ch (List.mem_of_mem_take hch)⟩
  rw [ne_eq, List.take_eq_nil_iff]
  exact not_or.mpr ⟨hn.ne', h.ne_nil⟩

theorem IsDigits.drop {digits : List Char} (h : IsDigits digits) {n : ℕ}
    (hn : n < digits.length) : IsDigits (digits.drop n) := by
  refine ⟨?_, fun ch hch => h.isDigit ch (List.mem_of_mem_drop hch)⟩
  rw [ne_eq, List.drop_eq_nil_iff]
  omega

theorem scanFraction_point {fraction s : List Char} (h : IsDigits fraction)
    (hs : ∀ ch ∈ s.head?, ch.isDigit = false) :
    scanFraction ('.' :: (fraction ++ s)) = some (fraction, s) := by
  rw [scanFraction, scanDigits_append h hs]

theorem scanFraction_none {s : List Char} (hs : '.' ∉ s.head?) :
    scanFraction s = some ([], s) := by
  cases s with
  | nil => rfl
  | cons ch s =>
      have hch : ch ≠ '.' := fun h => hs (by rw [h]; rfl)
      simp [scanFraction, hch]

theorem scanExponent_text {e : ℤ} {s : List Char} (hs : ∀ ch ∈ s.head?, ch.isDigit = false) :
    ∃ exponent, scanExponent (exponentText e ++ s) = some (exponent, s) := by
  have hdigits := scanDigits_append (isDigits_toDigits e.natAbs) hs
  by_cases he : e < 0
  · refine ⟨-ofDigits (Nat.toDigits 10 e.natAbs), ?_⟩
    rw [exponentText, if_pos he]
    simp only [List.cons_append, scanExponent, true_or, if_true, hdigits, Option.map_some]
  · refine ⟨ofDigits (Nat.toDigits 10 e.natAbs), ?_⟩
    rw [exponentText, if_neg he]
    simp only [List.cons_append, scanExponent, true_or, if_true, hdigits, Option.map_some]

theorem scanExponent_none {s : List Char} (hs : EndsNumber s) :
    scanExponent s = some (0, s) := by
  cases s with
  | nil => rfl
  | cons ch s =>
      obtain ⟨_, _, he, hE⟩ := hs ch rfl
      simp [scanExponent, he, hE]

/-- A number is read when its parts are. -/
theorem scanMagnitude_parts {t t' t'' s whole fraction : List Char} {exponent : ℤ}
    (hwhole : scanDigits t = some (whole, t')) (hzero : whole.head? = some '0' → whole.length ≤ 1)
    (hfraction : scanFraction t' = some (fraction, t''))
    (hexponent : scanExponent t'' = some (exponent, s)) :
    ∃ x, scanMagnitude t = some (x, s) := by
  refine ⟨scaled (ofDigits (whole ++ fraction)) (exponent - fraction.length), ?_⟩
  have hlong : ¬ (whole.head? = some '0' ∧ 1 < whole.length) := fun h =>
    absurd (hzero h.1) (Nat.not_le.mpr h.2)
  simp only [scanMagnitude, hwhole, Option.bind_eq_bind, Option.bind_some, if_neg hlong, hfraction,
    hexponent, Option.pure_def]

theorem not_digit_of_ends {s : List Char} (hs : EndsNumber s) :
    ∀ ch ∈ s.head?, ch.isDigit = false := fun ch hch => (hs ch hch).1

theorem scanMagnitude_text {digits s : List Char} (hdigits : IsDigits digits)
    (hhead : digits.head? ≠ some '0') (n : ℤ) (hs : EndsNumber s) :
    ∃ x, scanMagnitude (magnitudeText digits n ++ s) = some (x, s) := by
  have hpoint : '.' ∉ s.head? := fun h => (hs '.' h).2.1 rfl
  have hdigit := not_digit_of_ends hs
  have hfront {rest : List Char} : (digits ++ rest).head? = digits.head? :=
    List.head?_append_of_ne_nil _ hdigits.ne_nil
  rw [magnitudeText]
  split_ifs with hlong hshort hsmall hone
  · refine scanMagnitude_parts (scanDigits_append (hdigits.append_zeros _) hdigit)
      (fun h => absurd (hfront ▸ h) hhead) (scanFraction_none hpoint) (scanExponent_none hs)
  · have htake : (digits.take n.toNat).head? = digits.head? := by
      rw [List.head?_take, if_neg (by omega)]
    rw [List.append_assoc]
    exact scanMagnitude_parts
      (scanDigits_append (hdigits.take (n := n.toNat) (by omega)) (by simp))
      (fun h => absurd (htake ▸ h) hhead)
      (scanFraction_point (hdigits.drop (by omega)) hdigit) (scanExponent_none hs)
  · show ∃ x, scanMagnitude (['0'] ++ '.' :: (List.replicate (-n).toNat '0' ++ digits ++ s)) = _
    exact scanMagnitude_parts (scanDigits_append isDigits_zero (by simp)) (fun _ => Nat.le_refl 1)
      (scanFraction_point (hdigits.zeros_append _) hdigit) (scanExponent_none hs)
  · obtain ⟨exponent, hexponent⟩ := scanExponent_text (e := n - 1) hdigit
    rw [List.append_assoc]
    exact scanMagnitude_parts (scanDigits_append hdigits (by simp [exponentText]))
      (fun _ => hone.le) (scanFraction_none (by simp [exponentText])) hexponent
  · obtain ⟨exponent, hexponent⟩ := scanExponent_text (e := n - 1) hdigit
    have hlength : 1 < digits.length := by
      have := List.length_pos_iff.mpr hdigits.ne_nil
      omega
    rw [List.append_assoc, List.append_assoc]
    exact scanMagnitude_parts (scanDigits_append (hdigits.take Nat.one_pos) (by simp))
      (fun _ => by rw [List.length_take]; exact Nat.min_le_left _ _)
      (scanFraction_point (hdigits.drop hlength) (by simp [exponentText])) hexponent

theorem rdropWhile_zeros {digits : List Char} (h : IsDigits digits)
    (hhead : digits.head? ≠ some '0') :
    IsDigits (digits.reverse.dropWhile (· = '0')).reverse ∧
      (digits.reverse.dropWhile (· = '0')).reverse.head? ≠ some '0' := by
  obtain ⟨first, rest, rfl⟩ := List.exists_cons_of_ne_nil h.ne_nil
  have hfirst : first ≠ '0' := fun heq => hhead (by rw [heq]; rfl)
  have hprefix := List.rdropWhile_prefix (fun ch => decide (ch = '0')) (first :: rest)
  rw [List.rdropWhile] at hprefix
  obtain hnil | ⟨tail, htail, _⟩ := List.prefix_cons_iff.mp hprefix
  · have hall := List.dropWhile_eq_nil_iff.mp (List.reverse_eq_nil_iff.mp hnil)
    exact absurd (of_decide_eq_true (hall first (by simp))) hfirst
  · rw [htail]
    refine ⟨⟨List.cons_ne_nil _ _, fun ch hch => h.isDigit ch ?_⟩, by simpa using hfirst⟩
    exact hprefix.subset (htail ▸ hch)

theorem isDigits_significantDigits {x : ℚ} (hx : 0 < x) :
    IsDigits (significantDigits x).1 ∧ (significantDigits x).1.head? ≠ some '0' := by
  -- Scaled to seventeen digits before the point, the number is not rounded to zero.
  have hscaled : 0 < ⌊x * 10 ^ (17 - (Int.log 10 x + 1)) + 1 / 2⌋₊ := by
    have hlog : (10 : ℚ) ^ Int.log 10 x ≤ x := by
      exact_mod_cast Int.zpow_log_le_self (b := 10) (by norm_num) hx
    have hpow : (0 : ℚ) < 10 ^ (17 - (Int.log 10 x + 1)) := zpow_pos (by norm_num) _
    have hprod : (10 : ℚ) ^ (16 : ℤ) ≤ x * 10 ^ (17 - (Int.log 10 x + 1)) := by
      calc (10 : ℚ) ^ (16 : ℤ) = 10 ^ Int.log 10 x * 10 ^ (17 - (Int.log 10 x + 1)) := by
            rw [← zpow_add₀ (by norm_num)]
            congr 1
            ring
        _ ≤ x * 10 ^ (17 - (Int.log 10 x + 1)) := mul_le_mul_of_nonneg_right hlog hpow.le
    refine Nat.floor_pos.mpr ?_
    have hone : (1 : ℚ) ≤ 10 ^ (16 : ℤ) := by norm_num
    linarith
  exact rdropWhile_zeros (isDigits_toDigits _) (head_toDigits hscaled)

theorem scanNumber_of_magnitude {t s : List Char} {x : ℚ} (h : scanMagnitude t = some (x, s)) :
    scanNumber t = some (x, s) := by
  unfold scanNumber
  split
  · rename_i t'
    have hnone : scanMagnitude ('-' :: t') = none := rfl
    rw [hnone] at h
    exact absurd h (by simp)
  · exact h

/-- Whatever the number, it is read up to where its text ends. -/
theorem scanNumber_text (x : ℚ) {s : List Char} (hs : EndsNumber s) :
    ∃ y, scanNumber (numberText x ++ s) = some (y, s) := by
  rw [numberText]
  split_ifs with hzero hneg
  · obtain ⟨y, hy⟩ := scanMagnitude_parts
      (scanDigits_append isDigits_zero (not_digit_of_ends hs)) (fun _ => Nat.le_refl 1)
      (scanFraction_none fun h => (hs '.' h).2.1 rfl) (scanExponent_none hs)
    exact ⟨y, scanNumber_of_magnitude hy⟩
  · obtain ⟨hdigits, hhead⟩ := isDigits_significantDigits (neg_pos.mpr hneg)
    obtain ⟨y, hy⟩ := scanMagnitude_text hdigits hhead (significantDigits (-x)).2 hs
    exact ⟨-y, by rw [List.cons_append, scanNumber, hy]; rfl⟩
  · obtain ⟨hdigits, hhead⟩ := isDigits_significantDigits
      (lt_of_le_of_ne (not_lt.mp hneg) (Ne.symm hzero))
    obtain ⟨y, hy⟩ := scanMagnitude_text hdigits hhead (significantDigits x).2 hs
    exact ⟨y, scanNumber_of_magnitude hy⟩

/-- What a number can begin with. -/
theorem head_of_scanNumber {t s : List Char} {x : ℚ} (h : scanNumber t = some (x, s)) :
    ∃ ch t', t = ch :: t' ∧ (ch.isDigit = true ∨ ch = '-') := by
  unfold scanNumber at h
  split at h
  · exact ⟨'-', _, rfl, .inr rfl⟩
  · cases t with
    | nil => simp [scanMagnitude, scanDigits] at h
    | cons ch t =>
        refine ⟨ch, t, rfl, .inl ?_⟩
        by_contra hch
        simp [scanMagnitude, scanDigits, hch] at h

/-! ### Values -/

theorem json_induction {T : Type} {P : JsonOf T → Prop} (null : P .null)
    (bool : ∀ b, P (.bool b)) (num : ∀ x, P (.num x)) (str : ∀ text, P (.str text))
    (arr : ∀ items, (∀ item ∈ items, P item) → P (.arr items))
    (obj : ∀ fields, (∀ field ∈ fields, P field.2) → P (.obj fields)) (value : JsonOf T) :
    P value :=
  @JsonOf.rec T P (fun items => ∀ item ∈ items, P item) (fun fields => ∀ field ∈ fields, P field.2)
    (fun field => P field.2) null bool num str arr obj (fun _ h => absurd h List.not_mem_nil)
    (fun _ _ hitem hitems => List.forall_mem_cons.mpr ⟨hitem, hitems⟩)
    (fun _ h => absurd h List.not_mem_nil)
    (fun _ _ hfield hfields => List.forall_mem_cons.mpr ⟨hfield, hfields⟩) (fun _ _ h => h) value

theorem skipSpace_cons {ch : Char} (h : isSpace ch = false) (s : List Char) :
    skipSpace (ch :: s) = ch :: s := by
  rw [skipSpace, List.dropWhile_cons_of_neg (Bool.eq_false_iff.mp h)]

theorem notSpace_of_digit {ch : Char} (h : ch.isDigit = true) :
    isSpace ch = false ∧ ch ≠ ']' := by
  constructor
  · by_contra hspace
    simp only [isSpace, Bool.not_eq_false, decide_eq_true_eq] at hspace
    obtain rfl | rfl | rfl | rfl := hspace <;> exact absurd h (by decide)
  · rintro rfl
    exact absurd h (by decide)

theorem scanValue_number {t s : List Char} {x : ℚ} (h : scanNumber t = some (x, s)) (n : ℕ) :
    scanValue (n + 1) t = some (.num x, s) := by
  obtain ⟨ch, t', rfl, hch⟩ := head_of_scanNumber h
  have hspace : isSpace ch = false := by
    obtain hch | rfl := hch
    · exact (notSpace_of_digit hch).1
    · decide
  rw [scanValue, skipSpace_cons hspace]
  split
  case h_7 => rw [h]; rfl
  all_goals
    rename_i heq
    obtain ⟨rfl, _⟩ := List.cons_eq_cons.mp heq
    obtain hch | hch := hch
    · exact absurd hch (by decide)
    · exact absurd hch (by decide)

section

variable {P Q R : Prop} {value : Scan Json} {n : ℕ} {s s' t : List Char}

theorem ReadsWhen.last_item (h : ReadsWhen P (value s) (']' :: t)) :
    ReadsWhen P (scanItems value (n + 1) s) t := by
  rw [scanItems]
  exact (h.bind fun item => .of_eq (a := [item]) rfl).congr (and_iff_left trivial)

theorem ReadsWhen.next_item (h : ReadsWhen P (value s) (',' :: s'))
    (hrest : ReadsWhen Q (scanItems value n s') t) :
    ReadsWhen (P ∧ Q) (scanItems value (n + 1) s) t := by
  rw [scanItems]
  refine h.bind fun item => ?_
  exact (hrest.bind fun items => .of_eq (a := item :: items) rfl).congr (and_iff_left trivial)

theorem ReadsWhen.last_member {fields : List (String × Json)}
    (hname : ReadsWhen P (scanString s) (':' :: s')) (h : ReadsWhen Q (value s') ('}' :: t)) :
    ReadsWhen (P ∧ Q) (scanMembers value (n + 1) fields ('"' :: s)) t := by
  rw [scanMembers, skipSpace_cons (by decide)]
  refine hname.bind fun name => ?_
  exact (h.bind fun v => .of_eq (a := setProperty fields name v) rfl).congr (and_iff_left trivial)

theorem ReadsWhen.next_member {fields : List (String × Json)} {s'' : List Char}
    (hname : ReadsWhen P (scanString s) (':' :: s')) (h : ReadsWhen Q (value s') (',' :: s''))
    (hrest : ∀ fields, ReadsWhen R (scanMembers value n fields s'') t) :
    ReadsWhen (P ∧ Q ∧ R) (scanMembers value (n + 1) fields ('"' :: s)) t := by
  rw [scanMembers, skipSpace_cons (by decide)]
  refine hname.bind fun name => ?_
  exact h.bind fun v => hrest (setProperty fields name v)

theorem ReadsWhen.array (hfirst : ∀ ch ∈ s.head?, isSpace ch = false ∧ ch ≠ ']')
    (h : ReadsWhen P (scanItems (scanValue n) s.length s) t) :
    ReadsWhen P (scanValue (n + 1) ('[' :: s)) t := by
  have hskip : skipSpace s = s := by
    cases s with
    | nil => rfl
    | cons ch s => exact skipSpace_cons (hfirst ch rfl).1 s
  rw [scanValue, skipSpace_cons (by decide)]
  simp only [hskip]
  split
  · exact absurd rfl (hfirst ']' rfl).2
  · exact h.map _

theorem ReadsWhen.object
    (h : ReadsWhen P (scanMembers (scanValue n) ('"' :: s).length [] ('"' :: s)) t) :
    ReadsWhen P (scanValue (n + 1) ('{' :: '"' :: s)) t := by
  rw [scanValue, skipSpace_cons (by decide)]
  exact h.map _

end

end PureplayIngest.Shared.JsonText
