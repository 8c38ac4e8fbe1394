import PureplayIngest.Shared.EmailRegex
import PureplayIngest.Shared.JsonScan

/-!
When a redacted body is still JSON.

The addresses are replaced in the text of the payload, where a control
character of a string and a surrogate that stands alone are escape sequences.
The last part of these are letters or digits, which `EMAIL_REGEX` takes for the
beginning of an address that comes right after it. What is left then is a
backslash in front of a bracket. Nothing else goes wrong: no match reaches beyond
the string it is in, and quotes and backslashes are escaped with characters that
are in no match.
-/

namespace PureplayIngest.Shared

open Domain JsonText Lib

/-- The code point is written as an escape sequence of letters and digits. -/
def CodePoint.InLetters : CodePoint → Prop
  | .char ch => ch.toNat < 0x20
  | .lone _ => True

/-- A code point that is written in letters stands right before an address,
whose name may be empty. -/
def EscapeBeforeAddress (text : List CodePoint) : Prop :=
  ∃ before point tail rest name domain top,
    text = before ++ point :: (tail.map CodePoint.char ++ rest) ∧
      point.InLetters ∧ IsAddressTail tail name domain top

/-! ### What the search sees of a text -/

/-- A lone surrogate is in no match. -/
def CodePoint.seen : CodePoint → Char
  | .char ch => ch
  | .lone _ => '\uFFFD'

/-- Where the characters of a match are seen, they are. -/
theorem eq_map_of_seen {text : List CodePoint} {tail rest : List Char}
    (h : text.map CodePoint.seen = tail ++ rest) (htail : ∀ ch ∈ tail, isEmailChar ch = true) :
    ∃ others, text = tail.map CodePoint.char ++ others := by
  induction tail generalizing text with
  | nil => exact ⟨text, rfl⟩
  | cons ch tail ih =>
      rw [List.forall_mem_cons] at htail
      cases text with
      | nil => exact absurd h (by simp)
      | cons point text =>
          obtain ⟨hseen, hrest⟩ := List.cons_eq_cons.mp h
          obtain ⟨others, rfl⟩ := ih hrest htail.2
          cases point with
          | char ch' =>
              obtain rfl : ch' = ch := hseen
              exact ⟨others, rfl⟩
          | lone unit =>
              obtain rfl : '\uFFFD' = ch := hseen
              exact absurd htail.1 (by decide)

theorem matchLocal_seen_isSome_iff {text : List CodePoint} :
    (matchLocal (text.map CodePoint.seen)).isSome ↔ ∃ tail rest name domain top,
      text = tail.map CodePoint.char ++ rest ∧ IsAddressTail tail name domain top := by
  rw [matchLocal_isSome_iff]
  constructor
  · rintro ⟨tail, rest, name, domain, top, h, htail⟩
    obtain ⟨others, rfl⟩ := eq_map_of_seen h htail.chars
    exact ⟨tail, others, name, domain, top, rfl, htail⟩
  · rintro ⟨tail, rest, name, domain, top, rfl, htail⟩
    refine ⟨tail, rest.map CodePoint.seen, name, domain, top, ?_, htail⟩
    rw [List.map_append, List.map_map]
    exact congrArg (· ++ _) (List.map_id' tail)

theorem escapeBeforeAddress_nil : ¬ EscapeBeforeAddress [] := by
  rintro ⟨before, point, tail, rest, name, domain, top, h, _⟩
  simpa using congrArg List.length h

theorem escapeBeforeAddress_cons {point : CodePoint} {text : List CodePoint} :
    EscapeBeforeAddress (point :: text) ↔
      point.InLetters ∧ (matchLocal (text.map CodePoint.seen)).isSome ∨
        EscapeBeforeAddress text := by
  rw [matchLocal_seen_isSome_iff]
  constructor
  · rintro ⟨before, first, tail, rest, name, domain, top, h, hfirst, htail⟩
    cases before with
    | nil =>
        obtain ⟨rfl, rfl⟩ := List.cons_eq_cons.mp h
        exact .inl ⟨hfirst, tail, rest, name, domain, top, rfl, htail⟩
    | cons other before =>
        obtain ⟨rfl, rfl⟩ := List.cons_eq_cons.mp h
        exact .inr ⟨before, first, tail, rest, name, domain, top, rfl, hfirst, htail⟩
  · rintro (⟨hpoint, tail, rest, name, domain, top, rfl, htail⟩ |
      ⟨before, first, tail, rest, name, domain, top, rfl, hfirst, htail⟩)
    · exact ⟨[], point, tail, rest, name, domain, top, rfl, hpoint, htail⟩
    · exact ⟨point :: before, first, tail, rest, name, domain, top, rfl, hfirst, htail⟩

/-! ### Escape sequences -/

theorem isEmailRegexLocal_hexChar {n : ℕ} (h : n < 16) : isEmailRegexLocal (hexChar n) = true := by
  have key : ∀ i : Fin 16, isEmailRegexLocal (hexChar i.val) = true := by decide
  exact key ⟨n, h⟩

/-- Quotes and backslashes are escaped with themselves, control characters
with letters and digits. -/
theorem quoteChar_cases (ch : Char) :
    (quoteChar ch = [ch] ∧ ¬ ch.toNat < 0x20) ∨
      (quoteChar ch = ['\\', ch] ∧ isEmailChar ch = false ∧ ¬ ch.toNat < 0x20) ∨
      ∃ letter letters, quoteChar ch = '\\' :: letter :: letters ∧
        (∀ l ∈ letter :: letters, isEmailRegexLocal l = true) ∧ ch.toNat < 0x20 := by
  have escaped {e : Char} (h : escape ch = some e) : quoteChar ch = ['\\', e] := by
    rw [quoteChar, h]
  by_cases hquote : ch = '"'
  · subst hquote
    exact .inr (.inl (by decide))
  by_cases hslash : ch = '\\'
  · subst hslash
    exact .inr (.inl (by decide))
  by_cases hcontrol : ch.toNat < 0x20
  · refine .inr (.inr ?_)
    cases he : escape ch with
    | some e =>
        refine ⟨e, [], escaped he, List.forall_mem_singleton.mpr ?_, hcontrol⟩
        simp only [escape, if_neg hquote, if_neg hslash] at he
        repeat' split at he
        all_goals first
          | obtain rfl := Option.some.inj he
            decide
          | exact absurd he (by simp)
    | none =>
        refine ⟨'u', ['0', '0', hexChar (ch.toNat / 16), hexChar (ch.toNat % 16)], ?_, ?_,
          hcontrol⟩
        · rw [quoteChar, he]
          exact if_pos hcontrol
        · simp only [List.forall_mem_cons]
          exact ⟨by decide, by decide, by decide, isEmailRegexLocal_hexChar (by omega),
            isEmailRegexLocal_hexChar (by omega), by simp⟩
  · refine .inl ⟨?_, hcontrol⟩
    have hnone : escape ch = none := by
      simp only [escape, if_neg hquote, if_neg hslash]
      repeat' rw [if_neg (by omega)]
    rw [quoteChar, hnone]
    exact if_neg hcontrol

theorem isEmailChar_control {ch : Char} (h : ch.toNat < 0x20) : isEmailChar ch = false := by
  have key : ∀ n < 0x20, isEmailChar (Char.ofNat n) = false := by decide
  have hch := key ch.toNat h
  rwa [Char.ofNat_toNat] at hch

theorem isEmailChar_seen {point : CodePoint} (h : point.InLetters) :
    isEmailChar point.seen = false := by
  cases point with
  | char ch => exact isEmailChar_control h
  | lone unit => exact show isEmailChar '\uFFFD' = false by decide

/-- So are the lone surrogates. -/
theorem quotePoint_cases (point : CodePoint) :
    (quotePoint point = [point.seen] ∧ point = .char point.seen ∧ ¬ point.InLetters) ∨
      (quotePoint point = ['\\', point.seen] ∧ isEmailChar point.seen = false ∧
        ¬ point.InLetters) ∨
      ∃ letter letters, quotePoint point = '\\' :: letter :: letters ∧
        (∀ l ∈ letter :: letters, isEmailRegexLocal l = true) ∧ point.InLetters := by
  cases point with
  | char ch =>
      obtain ⟨hquote, hcontrol⟩ | hslash | hletters := quoteChar_cases ch
      · exact .inl ⟨hquote, rfl, hcontrol⟩
      · exact .inr (.inl hslash)
      · exact .inr (.inr hletters)
  | lone unit =>
      have hunit : unit.toNat < 2 ^ 16 := unit.toNat_lt
      refine .inr (.inr ⟨'u', _, rfl, ?_, trivial⟩)
      simp only [List.forall_mem_cons]
      exact ⟨by decide, isEmailRegexLocal_hexChar (by omega),
        isEmailRegexLocal_hexChar (by omega), isEmailRegexLocal_hexChar (by omega),
        isEmailRegexLocal_hexChar (by omega), by simp⟩

/-- The number of a code point, which its text stands for. -/
def CodePoint.toNat : CodePoint → ℕ
  | .char ch => ch.toNat
  | .lone unit => unit.toNat

theorem scanUnits_quotePoint (point : CodePoint) (s : List Char) :
    scanUnits (quotePoint point ++ s) =
      (scanUnits s).map fun (units, s) => (point.toNat :: units, s) := by
  cases point with
  | char ch => exact scanUnits_quoteChar ch s
  | lone unit =>
      have hunit : unit.toNat < 2 ^ 16 := unit.toNat_lt
      have h₁ := hexValue_hexChar (n := unit.toNat / 4096) (by omega)
      have h₂ := hexValue_hexChar (n := unit.toNat / 256 % 16) (by omega)
      have h₃ := hexValue_hexChar (n := unit.toNat / 16 % 16) (by omega)
      have h₄ := hexValue_hexChar (n := unit.toNat % 16) (by omega)
      have hsum : ((unit.toNat / 4096 * 16 + unit.toNat / 256 % 16) * 16 +
          unit.toNat / 16 % 16) * 16 + unit.toNat % 16 = unit.toNat := by omega
      simp only [quotePoint, unicodeEscape, List.cons_append, List.nil_append]
      rw [scanUnits]
      simp only [if_true, h₁, h₂, h₃, h₄, Option.bind_eq_bind, Option.bind_some, hsum]
      cases scanUnits s <;> rfl

/-- A search that no other character takes part in finds the same in a text as
in its escaped form. -/
theorem find_quoted {find : List Char → Option ℕ}
    (hfind : ∀ stop, isEmailChar stop = false → StopsAt find stop) (text : List CodePoint) :
    find (text.flatMap quotePoint) = find (text.map CodePoint.seen) := by
  -- Up to the first escape sequence, both are the same text.
  suffices h : ∃ plain, (text.map CodePoint.seen = plain ∧ text.flatMap quotePoint = plain) ∨
      ∃ stop t u, isEmailChar stop = false ∧ text.map CodePoint.seen = plain ++ stop :: t ∧
        text.flatMap quotePoint = plain ++ '\\' :: u by
    obtain ⟨plain, ⟨htext, hquoted⟩ | ⟨stop, t, u, hstop, htext, hquoted⟩⟩ := h
    · rw [hquoted, htext]
    · rw [hquoted, htext, hfind stop hstop, hfind '\\' (by decide)]
  induction text with
  | nil => exact ⟨[], .inl ⟨rfl, rfl⟩⟩
  | cons point text ih =>
      rw [List.flatMap_cons, List.map_cons]
      obtain ⟨hquote, _⟩ | ⟨hquote, hstop, _⟩ | ⟨letter, letters, hquote, _, hletters⟩ :=
        quotePoint_cases point
      · rw [hquote]
        obtain ⟨plain, ⟨htext, hquoted⟩ | ⟨stop, t, u, hstop, htext, hquoted⟩⟩ := ih
        · exact ⟨point.seen :: plain, .inl ⟨by rw [htext], by rw [hquoted]; rfl⟩⟩
        · exact ⟨point.seen :: plain,
            .inr ⟨stop, t, u, hstop, by rw [htext]; rfl, by rw [hquoted]; rfl⟩⟩
      · exact ⟨[], .inr ⟨point.seen, _, _, hstop, rfl, by rw [hquote]; rfl⟩⟩
      · exact ⟨[], .inr ⟨point.seen, _, _, isEmailChar_seen hletters, rfl, by rw [hquote]; rfl⟩⟩

/-! ### One string -/

/-- `replaceEmails` after the first `n` characters. -/
abbrev scrub (n : ℕ) (s : List Char) : List Char := replaceFrom matchEmail "[REDACTED]".toList n s

theorem matchEmail_stop {ch : Char} (h : isEmailChar ch = false) (s : List Char) :
    matchEmail (ch :: s) = none := stopsAt_matchEmail h [] s

/-- A match covers characters that stand for themselves in the escaped text. -/
theorem le_of_matchEmail {ch : Char} {text : List Char} {n : ℕ}
    (h : matchEmail (ch :: text) = some n) :
    isEmailChar ch = true ∧ n - 1 ≤ (text.takeWhile isEmailChar).length := by
  have hch : isEmailChar ch = true := by
    by_contra hstop
    rw [matchEmail_stop (Bool.eq_false_iff.mpr hstop)] at h
    exact absurd h (by simp)
  have hrun : matchEmail ((ch :: text).takeWhile isEmailChar) = some n := by
    rw [← h]
    conv_rhs => rw [← List.takeWhile_append_dropWhile (p := isEmailChar) (l := ch :: text)]
    cases hrest : (ch :: text).dropWhile isEmailChar with
    | nil => rw [List.append_nil]
    | cons stop rest =>
        have hstop : isEmailChar stop = false := by
          have := List.head_dropWhile_not isEmailChar (w := by rw [hrest]; simp)
          simpa [hrest] using this
        exact (stopsAt_matchEmail hstop _ _).symm
  have hle := (bounded_matchEmail _ _ hrun).2
  rw [List.takeWhile_cons_of_pos hch, List.length_cons] at hle
  exact ⟨hch, by omega⟩

/-- The letters of an escape sequence are in a match exactly when one begins
with an empty name behind them. -/
theorem scrub_letters {letters s : List Char}
    (hletters : ∀ letter ∈ letters, isEmailRegexLocal letter = true) (h : matchLocal s = none) :
    scrub 0 (letters ++ s) = letters ++ scrub 0 s := by
  have hnone : ∀ run : List Char, (∀ letter ∈ run, isEmailRegexLocal letter = true) →
      matchLocal (run ++ s) = none := by
    intro run hrun
    induction run with
    | nil => exact h
    | cons letter run ih =>
        have hchars := List.forall_mem_cons.mp hrun
        have hat : letter ≠ '@' := by
          rintro rfl
          exact absurd hchars.1 (by decide)
        rw [List.cons_append, matchLocal, ih hchars.2]
        simp [matchAt, hat]
  induction letters with
  | nil => rfl
  | cons letter letters ih =>
      have hchars := List.forall_mem_cons.mp hletters
      have hfind : matchEmail (letter :: (letters ++ s)) = none := by
        rw [matchEmail, hnone letters hchars.2]
        simp
      rw [List.cons_append, List.cons_append]
      exact (replaceFrom_none hfind).trans (congrArg _ (ih hchars.2))

theorem readsWhen_plain {P : Prop} {ch : Char} (hch : quoteChar ch = [ch]) {text s : List Char}
    (h : ReadsWhen P (scanUnits text) s) : ReadsWhen P (scanUnits (ch :: text)) s := by
  have hscan := scanUnits_quoteChar ch text
  rw [hch, List.singleton_append] at hscan
  rw [hscan]
  exact h.map _

theorem readsWhen_redacted {P : Prop} {text s : List Char} (h : ReadsWhen P (scanUnits text) s) :
    ReadsWhen P (scanUnits ("[REDACTED]".toList ++ text)) s := by
  have hplain : ∀ ch ∈ "[REDACTED]".toList, quoteChar ch = [ch] := by
    have hall : ("[REDACTED]".toList.all fun ch => quoteChar ch = [ch]) = true := by decide
    simpa only [List.all_eq_true, decide_eq_true_eq] using hall
  generalize "[REDACTED]".toList = redacted at hplain ⊢
  induction redacted with
  | nil => exact h
  | cons ch redacted ih =>
      have hchars := List.forall_mem_cons.mp hplain
      exact readsWhen_plain hchars.1 (ih hchars.2)

/-- The letters of an escape sequence become the name of an address behind them. -/
theorem matchEmail_letters {letter : Char} {letters s : List Char}
    (hletters : ∀ ch ∈ letter :: letters, isEmailRegexLocal ch = true)
    (h : (matchLocal s).isSome) : (matchEmail (letter :: (letters ++ s))).isSome := by
  have hchars := List.forall_mem_cons.mp hletters
  obtain ⟨run, t, hrun, hname, hat⟩ := repeats_matchLocal.isSome_iff.mp h
  refine matchEmail_cons_isSome_iff.mpr ⟨hchars.1, repeats_matchLocal.isSome_iff.mpr
    ⟨letters ++ run, t, by rw [hrun, List.append_assoc], ?_, hat⟩⟩
  exact List.forall_mem_append.mpr ⟨hchars.2, hname⟩

/-- What follows the backslash then is the bracket of the replacement. -/
theorem scanUnits_lost {letter : Char} {letters s : List Char}
    (hletters : ∀ ch ∈ letter :: letters, isEmailRegexLocal ch = true)
    (h : (matchLocal s).isSome) (t : List Char) :
    scanUnits ('\\' :: scrub 0 (letter :: letters ++ s) ++ t) = none := by
  obtain ⟨k, hk⟩ := Option.isSome_iff_exists.mp (matchEmail_letters hletters h)
  have hlost : scrub 0 (letter :: letters ++ s) =
      "[REDACTED]".toList ++ scrub (k - 1) (letters ++ s) := replaceFrom_found hk
  rw [hlost, scanUnits.eq_def]
  rfl

section

variable {P : Prop} {point : CodePoint} {text : List CodePoint} {s : List Char}

/-- A character that stands for itself is dropped inside a match, and otherwise
a match may begin with it. -/
theorem readsWhen_self (hquote : quotePoint point = [point.seen])
    (hself : quoteChar point.seen = [point.seen]) {n : ℕ}
    (hn : n ≤ ((point.seen :: text.map CodePoint.seen).takeWhile isEmailChar).length)
    (ih : ∀ m ≤ ((text.map CodePoint.seen).takeWhile isEmailChar).length,
      ReadsWhen P (scanUnits (scrub m (text.flatMap quotePoint) ++ '"' :: s)) s) :
    ReadsWhen P (scanUnits (scrub n (quotePoint point ++ text.flatMap quotePoint) ++ '"' :: s))
      s := by
  have hfind := find_quoted (fun _ => stopsAt_matchEmail) (point :: text)
  rw [List.map_cons, List.flatMap_cons, hquote, List.singleton_append] at hfind
  rw [hquote, List.singleton_append]
  cases n with
  | succ n =>
      have hch : isEmailChar point.seen = true := by
        by_contra hch
        rw [List.takeWhile_cons_of_neg hch] at hn
        exact absurd hn (Nat.not_succ_le_zero n)
      rw [List.takeWhile_cons_of_pos hch, List.length_cons] at hn
      exact ih n (Nat.le_of_succ_le_succ hn)
  | zero =>
      cases hmatch : matchEmail (point.seen :: text.map CodePoint.seen) with
      | some n =>
          rw [scrub, replaceFrom_found (hfind.trans hmatch), List.append_assoc]
          exact readsWhen_redacted (ih _ (le_of_matchEmail hmatch).2)
      | none =>
          rw [scrub, replaceFrom_none (hfind.trans hmatch), List.cons_append]
          exact readsWhen_plain hself (ih 0 (Nat.zero_le _))

/-- What a match leaves as it is is read as it was written. -/
theorem readsWhen_kept (hscrub : scrub 0 (quotePoint point ++ text.flatMap quotePoint) =
      quotePoint point ++ scrub 0 (text.flatMap quotePoint))
    (ih : ReadsWhen P (scanUnits (scrub 0 (text.flatMap quotePoint) ++ '"' :: s)) s) :
    ReadsWhen P (scanUnits (scrub 0 (quotePoint point ++ text.flatMap quotePoint) ++ '"' :: s))
      s := by
  rw [hscrub, List.append_assoc, scanUnits_quotePoint]
  exact ih.map _

/-- The letters of an escape become part of a name if an address can go on behind them. -/
theorem scrub_escape {letter : Char} {letters : List Char}
    (hquote : quotePoint point = '\\' :: letter :: letters) :
    scrub 0 (quotePoint point ++ text.flatMap quotePoint) =
      '\\' :: scrub 0 (letter :: letters ++ text.flatMap quotePoint) := by
  rw [hquote]
  exact replaceFrom_none (matchEmail_stop (by decide) _)

/-- A string is read to its closing quote, unless an escape sequence has lost its letters. -/
theorem readsWhen_scanUnits {n : ℕ}
    (hn : n ≤ ((text.map CodePoint.seen).takeWhile isEmailChar).length) (s : List Char) :
    ReadsWhen (¬ EscapeBeforeAddress text)
      (scanUnits (scrub n (text.flatMap quotePoint) ++ '"' :: s)) s := by
  induction text generalizing n with
  | nil =>
      obtain rfl : n = 0 := Nat.le_zero.mp hn
      exact (ReadsWhen.of_eq (a := []) (by rw [scanUnits.eq_def]; rfl)).congr
        (iff_of_true trivial escapeBeforeAddress_nil)
  | cons point text ih =>
      have hplain (h : ¬ (point.InLetters ∧ (matchLocal (text.map CodePoint.seen)).isSome)) :
          ¬ EscapeBeforeAddress text ↔ ¬ EscapeBeforeAddress (point :: text) := by
        rw [escapeBeforeAddress_cons, or_iff_right h]
      rw [List.map_cons] at hn
      rw [List.flatMap_cons]
      obtain ⟨hquote, hchar, hletters⟩ | ⟨hquote, hstop, hletters⟩ |
        ⟨letter, letters, hquote, hlocal, hletters⟩ := quotePoint_cases point
      · have hself : quoteChar point.seen = [point.seen] := by
          rw [hchar] at hquote
          exact hquote
        exact (readsWhen_self hquote hself hn fun m hm => ih hm).congr
          (hplain fun h => hletters h.1)
      · rw [List.takeWhile_cons_of_neg (Bool.eq_false_iff.mp hstop)] at hn
        obtain rfl : n = 0 := Nat.le_zero.mp hn
        -- No match goes on through a backslash or what it escapes.
        refine (readsWhen_kept ?_ (ih (Nat.zero_le _))).congr (hplain fun h => hletters h.1)
        rw [hquote]
        exact (replaceFrom_none (matchEmail_stop (by decide) _)).trans
          (congrArg _ (replaceFrom_none (matchEmail_stop hstop _)))
      · rw [List.takeWhile_cons_of_neg (Bool.eq_false_iff.mp (isEmailChar_seen hletters))] at hn
        obtain rfl : n = 0 := Nat.le_zero.mp hn
        have hrest := find_quoted (fun _ => stopsAt_matchLocal) text
        cases hmatch : matchLocal (text.map CodePoint.seen) with
        | none =>
            refine (readsWhen_kept ?_ (ih (Nat.zero_le _))).congr
              (hplain fun h => by simp [hmatch] at h)
            rw [scrub_escape hquote, scrub_letters hlocal (hrest.trans hmatch), hquote]
            rfl
        | some n =>
            have hescape : EscapeBeforeAddress (point :: text) :=
              escapeBeforeAddress_cons.mpr (.inl ⟨hletters, by rw [hmatch]; rfl⟩)
            refine ⟨fun h => absurd hescape h, fun _ => ?_⟩
            rw [scrub_escape hquote]
            exact scanUnits_lost hlocal (by rw [hrest, hmatch]; rfl) _

end

/-! ### The text of a value, part by part -/

theorem replaceEmails_stop {stop : Char} (hstop : isEmailChar stop = false) (s t : List Char) :
    replaceEmails (s ++ stop :: t) = replaceEmails s ++ stop :: replaceEmails t := by
  simp only [replaceEmails, replaceEmailsFrom_eq]
  exact replaceFrom_append_stop bounded_matchEmail (stopsAt_matchEmail hstop) (Nat.zero_le _) t

theorem replaceEmails_stop_cons {stop : Char} (hstop : isEmailChar stop = false) (t : List Char) :
    replaceEmails (stop :: t) = stop :: replaceEmails t := replaceEmails_stop hstop [] t

theorem replaceEmails_eq_self {s : List Char} (h : '@' ∉ s) : replaceEmails s = s := by
  rw [replaceEmails, replaceEmailsFrom_eq]
  refine replaceFrom_eq_self fun t ht => ?_
  by_contra hfound
  obtain ⟨ch, t, rfl⟩ : ∃ ch t', t = ch :: t' := by
    cases t with
    | nil => exact absurd rfl hfound
    | cons ch t => exact ⟨ch, t, rfl⟩
  obtain ⟨_, hlocal⟩ := matchEmail_cons_isSome_iff.mp (Option.isSome_iff_ne_none.mpr hfound)
  obtain ⟨tail, rest, name, domain, top, rfl, htail⟩ := matchLocal_isSome_iff.mp hlocal
  refine h (ht.subset (List.mem_cons_of_mem _ (List.mem_append_left _ ?_)))
  rw [htail.eq]
  exact List.mem_append_right _ List.mem_cons_self

section

variable {T : Type} [JsText T]

/-- No address begins within an escape sequence. -/
def Unbroken (texts : List T) : Prop :=
  ∀ text ∈ texts, ¬ EscapeBeforeAddress (JsText.codePoints text)

theorem replaceEmails_quote (text : T) : replaceEmails (quoteText text) =
    '"' :: (replaceEmails ((JsText.codePoints text).flatMap quotePoint) ++ ['"']) := by
  rw [quoteText, replaceEmails_stop (by decide), replaceEmails_stop_cons (by decide),
    List.cons_append]
  rfl

theorem replaceEmails_items {items : List (JsonOf T)} (hne : items ≠ []) (item : JsonOf T) :
    replaceEmails (stringifyItems (item :: items)) =
      replaceEmails (stringifyValue item) ++ ',' :: replaceEmails (stringifyItems items) := by
  rw [stringifyItems, replaceEmails_stop (by decide)]
  exact hne

theorem replaceEmails_fields {fields : List (T × JsonOf T)} (hne : fields ≠ []) (name : T)
    (value : JsonOf T) :
    replaceEmails (stringifyFields ((name, value) :: fields)) =
      '"' :: (replaceEmails ((JsText.codePoints name).flatMap quotePoint) ++ '"' :: ':' ::
        (replaceEmails (stringifyValue value) ++
          ',' :: replaceEmails (stringifyFields fields))) := by
  rw [stringifyFields, replaceEmails_stop (by decide), replaceEmails_stop (by decide),
    replaceEmails_quote]
  · simp
  · exact hne

theorem replaceEmails_field (name : T) (value : JsonOf T) :
    replaceEmails (stringifyFields [(name, value)]) =
      '"' :: (replaceEmails ((JsText.codePoints name).flatMap quotePoint) ++ '"' :: ':' ::
        replaceEmails (stringifyValue value)) := by
  rw [stringifyFields, replaceEmails_stop (by decide), replaceEmails_quote]
  simp

theorem not_mem_exponentText (e : ℤ) : '@' ∉ exponentText e := by
  have hdigits : '@' ∉ Nat.toDigits 10 e.natAbs := fun h =>
    absurd ((isDigits_toDigits _).isDigit _ h) (by decide)
  rw [exponentText]
  split <;> simpa using hdigits

theorem not_mem_numberText (x : ℚ) : '@' ∉ numberText x := by
  have hmagnitude {y : ℚ} (hy : 0 < y) :
      '@' ∉ magnitudeText (significantDigits y).1 (significantDigits y).2 := by
    have hdigits : '@' ∉ (significantDigits y).1 := fun h =>
      absurd ((isDigits_significantDigits hy).1.isDigit _ h) (by decide)
    have htake (n : ℕ) : '@' ∉ (significantDigits y).1.take n := fun h =>
      hdigits (List.mem_of_mem_take h)
    have hdrop (n : ℕ) : '@' ∉ (significantDigits y).1.drop n := fun h =>
      hdigits (List.mem_of_mem_drop h)
    have htail : '@' ∉ (significantDigits y).1.tail := fun h => hdigits (List.mem_of_mem_tail h)
    have hexponent := not_mem_exponentText ((significantDigits y).2 - 1)
    rw [magnitudeText]
    split_ifs <;> simp [hdigits, htake, hdrop, htail, hexponent, List.mem_replicate]
  rw [numberText]
  split_ifs with hzero hneg
  · decide
  · simpa using hmagnitude (neg_pos.mpr hneg)
  · exact hmagnitude (lt_of_le_of_ne (not_lt.mp hneg) (Ne.symm hzero))

/-! ### Reading the redacted text -/

theorem unbroken_singleton {text : T} :
    Unbroken [text] ↔ ¬ EscapeBeforeAddress (JsText.codePoints text) := by
  rw [Unbroken, List.forall_mem_singleton]

theorem unbroken_append {texts others : List T} :
    Unbroken (texts ++ others) ↔ Unbroken texts ∧ Unbroken others := List.forall_mem_append

theorem unbroken_cons {text : T} {texts : List T} :
    Unbroken (text :: texts) ↔ ¬ EscapeBeforeAddress (JsText.codePoints text) ∧ Unbroken texts :=
  List.forall_mem_cons

theorem readsWhen_string (text : T) (s : List Char) :
    ReadsWhen (¬ EscapeBeforeAddress (JsText.codePoints text))
      (scanString (replaceEmails ((JsText.codePoints text).flatMap quotePoint) ++ '"' :: s)) s := by
  rw [replaceEmails, replaceEmailsFrom_eq, scanString]
  exact (readsWhen_scanUnits (Nat.zero_le _) s).map fun units => String.ofList (ofUnits units)

theorem endsNumber_cons {ch : Char} (h : ch ∈ [',', ']', '\x7d']) (s : List Char) :
    EndsNumber (ch :: s) := by
  intro ch' hch'
  obtain rfl : ch = ch' := by simpa using hch'
  simp only [List.mem_cons, List.not_mem_nil, or_false] at h
  obtain rfl | rfl | rfl := h <;> decide

theorem head_value (value : JsonOf T) : ∃ ch t, replaceEmails (stringifyValue value) = ch :: t ∧
    isSpace ch = false ∧ ch ≠ ']' := by
  cases value with
  | null => exact ⟨'n', _, rfl, by decide⟩
  | bool b => cases b with
    | false => exact ⟨'f', _, rfl, by decide⟩
    | true => exact ⟨'t', _, rfl, by decide⟩
  | num x =>
      obtain ⟨y, hy⟩ := scanNumber_text x (s := []) (by simp [EndsNumber])
      rw [List.append_nil] at hy
      obtain ⟨ch, t, ht, hch⟩ := head_of_scanNumber hy
      rw [stringifyValue, replaceEmails_eq_self (not_mem_numberText x), ht]
      refine ⟨ch, t, rfl, ?_⟩
      obtain hch | rfl := hch
      · exact notSpace_of_digit hch
      · decide
  | str text => exact ⟨'"', _, replaceEmails_quote text, by decide⟩
  | arr items =>
      refine ⟨'[', replaceEmails (stringifyItems items ++ [']']), ?_, by decide⟩
      rw [stringifyValue, List.cons_append, replaceEmails_stop_cons (by decide)]
  | obj fields =>
      refine ⟨'\x7b', replaceEmails (stringifyFields fields ++ ['\x7d']), ?_, by decide⟩
      rw [stringifyValue, List.cons_append, replaceEmails_stop_cons (by decide)]

/-- The value's text is read to its end, and no further, unless one of its strings is broken. -/
def ReadsValue (value : JsonOf T) : Prop :=
  ∀ n s, (replaceEmails (stringifyValue value)).length < n → EndsNumber s →
    ReadsWhen (Unbroken (textsOf value)) (scanValue n (replaceEmails (stringifyValue value) ++ s)) s

theorem readsWhen_items {items : List (JsonOf T)} (hne : items ≠ [])
    (hitems : ∀ item ∈ items, ReadsValue item) {n k : ℕ}
    (hn : (replaceEmails (stringifyItems items)).length < n) (hk : items.length ≤ k)
    (s : List Char) :
    ReadsWhen (Unbroken (textsOfItems items))
      (scanItems (scanValue n) k (replaceEmails (stringifyItems items) ++ ']' :: s)) s := by
  induction items generalizing k with
  | nil => exact absurd rfl hne
  | cons item items ih =>
      obtain ⟨k, rfl⟩ := Nat.exists_eq_add_one_of_ne_zero (Nat.ne_zero_of_lt hk)
      rw [List.forall_mem_cons] at hitems
      rw [textsOfItems]
      cases items with
      | nil =>
          have hitem := hitems.1 n (']' :: s) hn (endsNumber_cons (by decide) s)
          rw [textsOfItems, List.append_nil]
          exact hitem.last_item
      | cons next items =>
          rw [replaceEmails_items (List.cons_ne_nil _ _), List.length_append,
            List.length_cons] at hn
          rw [replaceEmails_items (List.cons_ne_nil _ _), List.append_assoc, List.cons_append,
            unbroken_append]
          have hitem := hitems.1 n (',' :: (replaceEmails (stringifyItems (next :: items)) ++
            ']' :: s)) (by omega) (endsNumber_cons (by decide) _)
          exact hitem.next_item
            (ih (List.cons_ne_nil _ _) hitems.2 (by omega) (Nat.le_of_succ_le_succ hk))

theorem readsWhen_members {members : List (T × JsonOf T)} (hne : members ≠ [])
    (hmembers : ∀ member ∈ members, ReadsValue member.2) {n k : ℕ}
    (hn : (replaceEmails (stringifyFields members)).length < n) (hk : members.length ≤ k)
    (fields : List (String × Json)) (s : List Char) :
    ReadsWhen (Unbroken (textsOfFields members))
      (scanMembers (scanValue n) k fields
        (replaceEmails (stringifyFields members) ++ '\x7d' :: s)) s := by
  induction members generalizing k fields with
  | nil => exact absurd rfl hne
  | cons member members ih =>
      obtain ⟨k, rfl⟩ := Nat.exists_eq_add_one_of_ne_zero (Nat.ne_zero_of_lt hk)
      obtain ⟨name, value⟩ := member
      rw [List.forall_mem_cons] at hmembers
      rw [textsOfFields, unbroken_cons]
      cases members with
      | nil =>
          rw [replaceEmails_field] at hn ⊢
          simp only [List.length_cons, List.length_append] at hn
          simp only [List.cons_append, List.append_assoc, textsOfFields, List.append_nil]
          have hvalue := hmembers.1 n ('\x7d' :: s) (by dsimp only; omega)
            (endsNumber_cons (by decide) s)
          exact (readsWhen_string name _).last_member hvalue
      | cons next members =>
          rw [replaceEmails_fields (List.cons_ne_nil _ _)] at hn ⊢
          simp only [List.length_cons, List.length_append] at hn
          simp only [List.cons_append, List.append_assoc]
          rw [unbroken_append]
          have hvalue := hmembers.1 n (',' :: (replaceEmails (stringifyFields (next :: members)) ++
            '\x7d' :: s)) (by dsimp only; omega) (endsNumber_cons (by decide) _)
          exact (readsWhen_string name _).next_member hvalue fun fields =>
            ih (List.cons_ne_nil _ _) hmembers.2 (by omega) (Nat.le_of_succ_le_succ hk) fields

theorem length_le_items (items : List (JsonOf T)) :
    items.length ≤ (replaceEmails (stringifyItems items)).length + 1 := by
  induction items with
  | nil => exact Nat.zero_le _
  | cons item items ih =>
      cases items with
      | nil => exact Nat.le_add_left _ _
      | cons next items =>
          rw [replaceEmails_items (List.cons_ne_nil _ _)]
          simp only [List.length_append, List.length_cons] at ih ⊢
          omega

theorem length_le_members (members : List (T × JsonOf T)) :
    members.length ≤ (replaceEmails (stringifyFields members)).length := by
  induction members with
  | nil => exact Nat.zero_le _
  | cons member members ih =>
      cases members with
      | nil =>
          rw [replaceEmails_field, List.length_cons, List.length_cons]
          exact Nat.succ_le_succ (Nat.zero_le _)
      | cons next members =>
          rw [replaceEmails_fields (List.cons_ne_nil _ _)]
          simp only [List.length_append, List.length_cons] at ih ⊢
          omega

theorem readsValue_arr {items : List (JsonOf T)} (h : ∀ item ∈ items, ReadsValue item) :
    ReadsValue (.arr items) := by
  intro n s hn hs
  have htext : replaceEmails (stringifyValue (.arr items)) =
      '[' :: (replaceEmails (stringifyItems items) ++ [']']) := by
    rw [stringifyValue, List.cons_append, replaceEmails_stop_cons (by decide),
      replaceEmails_stop (by decide)]
    rfl
  rw [htext, List.length_cons, List.length_append] at hn
  obtain ⟨n, rfl⟩ := Nat.exists_eq_add_one_of_ne_zero (Nat.ne_zero_of_lt hn)
  rw [htext, List.cons_append, List.append_assoc, List.singleton_append, textsOf]
  by_cases hne : items = []
  · subst hne
    exact (ReadsWhen.of_eq (a := JsonOf.arr []) rfl).congr
      (iff_of_true trivial (by simp [Unbroken, textsOfItems]))
  · refine ReadsWhen.array ?_ (readsWhen_items hne h (by omega) ?_ s)
    · obtain ⟨item, items, rfl⟩ := List.exists_cons_of_ne_nil hne
      obtain ⟨ch, t, ht, hch⟩ := head_value item
      have hfirst : ∃ t', replaceEmails (stringifyItems (item :: items)) = ch :: t' := by
        cases items with
        | nil => exact ⟨t, ht⟩
        | cons next items =>
            rw [replaceEmails_items (List.cons_ne_nil _ _), ht]
            exact ⟨_, rfl⟩
      obtain ⟨t', ht'⟩ := hfirst
      rw [ht']
      rintro ch' hch'
      obtain rfl : ch = ch' := by simpa using hch'
      exact hch
    · have := length_le_items items
      rw [List.length_append, List.length_cons]
      omega

theorem readsValue_obj {fields : List (T × JsonOf T)} (h : ∀ field ∈ fields, ReadsValue field.2) :
    ReadsValue (.obj fields) := by
  intro n s hn hs
  have htext : replaceEmails (stringifyValue (.obj fields)) =
      '\x7b' :: (replaceEmails (stringifyFields fields) ++ ['\x7d']) := by
    rw [stringifyValue, List.cons_append, replaceEmails_stop_cons (by decide),
      replaceEmails_stop (by decide)]
    rfl
  rw [htext, List.length_cons, List.length_append] at hn
  obtain ⟨n, rfl⟩ := Nat.exists_eq_add_one_of_ne_zero (Nat.ne_zero_of_lt hn)
  rw [htext, List.cons_append, List.append_assoc, List.singleton_append, textsOf]
  by_cases hne : fields = []
  · subst hne
    exact (ReadsWhen.of_eq (a := JsonOf.obj []) rfl).congr
      (iff_of_true trivial (by simp [Unbroken, textsOfFields]))
  · have hk := length_le_members fields
    have hread := readsWhen_members hne h (n := n)
      (k := (replaceEmails (stringifyFields fields) ++ '\x7d' :: s).length) (by omega)
      (by rw [List.length_append]; omega) [] s
    obtain ⟨⟨name, value⟩, fields, rfl⟩ := List.exists_cons_of_ne_nil hne
    obtain ⟨t, ht⟩ : ∃ t, replaceEmails (stringifyFields ((name, value) :: fields)) = '"' :: t := by
      cases fields with
      | nil => exact ⟨_, replaceEmails_field name value⟩
      | cons next fields => exact ⟨_, replaceEmails_fields (List.cons_ne_nil _ _) name value⟩
    rw [ht] at hread ⊢
    exact hread.object

theorem readsValue (value : JsonOf T) : ReadsValue value := by
  induction value using json_induction with
  | null =>
      intro n s hn hs
      obtain ⟨n, rfl⟩ := Nat.exists_eq_add_one_of_ne_zero (Nat.ne_zero_of_lt hn)
      exact (ReadsWhen.of_eq (a := JsonOf.null) rfl).congr
        (iff_of_true trivial (by simp [Unbroken, textsOf]))
  | bool b =>
      intro n s hn hs
      obtain ⟨n, rfl⟩ := Nat.exists_eq_add_one_of_ne_zero (Nat.ne_zero_of_lt hn)
      refine (ReadsWhen.of_eq (a := JsonOf.bool b) ?_).congr
        (iff_of_true trivial (by simp [Unbroken, textsOf]))
      cases b <;> rfl
  | num x =>
      intro n s hn hs
      obtain ⟨n, rfl⟩ := Nat.exists_eq_add_one_of_ne_zero (Nat.ne_zero_of_lt hn)
      obtain ⟨y, hy⟩ := scanNumber_text x hs
      rw [stringifyValue, replaceEmails_eq_self (not_mem_numberText x)]
      exact (ReadsWhen.of_eq (scanValue_number hy n)).congr
        (iff_of_true trivial (by simp [Unbroken, textsOf]))
  | str text =>
      intro n s hn hs
      obtain ⟨n, rfl⟩ := Nat.exists_eq_add_one_of_ne_zero (Nat.ne_zero_of_lt hn)
      rw [stringifyValue, replaceEmails_quote, List.cons_append, List.append_assoc,
        List.singleton_append, scanValue, skipSpace_cons (by decide), textsOf, unbroken_singleton]
      exact (readsWhen_string text s).map _
  | arr items ih => exact readsValue_arr ih
  | obj fields ih => exact readsValue_obj ih

theorem parse_replaceEmails_isSome_iff (value : JsonOf T) :
    (parse (replaceEmails (stringifyValue value))).isSome ↔ Unbroken (textsOf value) := by
  have hread := readsValue value _ [] (Nat.lt_succ_self _) (by simp [EndsNumber])
  rw [List.append_nil] at hread
  rw [← hread.isSome_iff, parse]
  by_cases hP : Unbroken (textsOf value)
  · obtain ⟨v, hv⟩ := hread.1 hP
    rw [hv]
    exact iff_of_true rfl rfl
  · rw [hread.2 hP]
    rfl

end

/-- What is left of a payload is JSON if and only if none of the strings that are
kept, the names of properties among them, has an address right behind a control
character or a lone surrogate. -/
theorem redactPii_valid_iff (payload : List (JsString × JsonOf JsString)) :
    (parse (redactPii (.obj payload)).toList).isSome ↔
      ∀ text ∈ textsOf (blockedPaths.foldl deleteNestedPath (.obj payload)),
        ¬ EscapeBeforeAddress text.codePoints := by
  rw [redactPii, String.toList_ofList]
  exact parse_replaceEmails_isSome_iff _

/-- A note of two lines, the second an address. -/
def notePayload : List (JsString × JsonOf JsString) :=
  [(.ofString "player", .obj [(.ofString "id", .str (.ofString "demo-player-1"))]),
    (.ofString "note", .str (.ofString "reach me at\nann@example.org"))]

theorem redacted_note_not_json : (parse (stringifyValue (.obj notePayload))).isSome = true ∧
    redactPii (.obj notePayload) =
      "\x7b\"player\":\x7b\"id\":\"demo-player-1\"\x7d,\"note\":\"reach me at\\[REDACTED]\"\x7d" ∧
    (parse (redactPii (.obj notePayload)).toList).isSome = false := by
  decide +kernel

end PureplayIngest.Shared
