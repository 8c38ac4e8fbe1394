import PureplayIngest.Shared.JsDate

/-!
Timestamps as the vendors send them: the strings
`z.string().datetime({ offset: true })` accepts, and `new Date` of them.
-/

namespace PureplayIngest.Shared

open Lib

/-- Read `n` decimal digits. -/
def takeDigits : ℕ → List Char → Option (ℕ × List Char)
  | 0, s => some (0, s)
  | _ + 1, [] => none
  | n + 1, ch :: s =>
      if ch.isDigit then
        (takeDigits n s).map fun r => ((ch.toNat - 48) * 10 ^ n + r.1, r.2)
      else none

/-- Read the one character `ch`. -/
def expect (ch : Char) : List Char → Option (List Char)
  | [] => none
  | x :: s => if x = ch then some s else none

/-- The fields of a timestamp. `offsetMin` is `none` for `Z`; fraction digits
past the third are cut off, as `Date` does. -/
structure DateTimeParts where
  year : ℕ
  month : ℕ
  day : ℕ
  hour : ℕ
  minute : ℕ
  second : ℕ
  millisecond : ℕ
  offsetMin : Option ℤ
  deriving DecidableEq, Repr

/-- Milliseconds of a digit string after the decimal point. -/
def millisecondsOf (fraction : List Char) : ℕ :=
  let d (i : ℕ) := (fraction[i]?.map fun ch => ch.toNat - 48).getD 0
  d 0 * 100 + d 1 * 10 + d 2

/-- The optional `:ss` with its optional fraction. -/
def scanSeconds (s : List Char) : Option (ℕ × ℕ × List Char) :=
  match expect ':' s with
  | none => some (0, 0, s)
  | some s => do
      let (second, s) ← takeDigits 2 s
      match expect '.' s with
      | none => some (second, 0, s)
      | some s =>
          let fraction := s.takeWhile Char.isDigit
          if fraction.isEmpty then none
          else some (second, millisecondsOf fraction, s.dropWhile Char.isDigit)

/-- `Z` or a signed `hh:mm` that ends the string, hours up to 23. -/
def scanOffset : List Char → Option (Option ℤ)
  | ['Z'] => some none
  | sign :: s => do
      let (hours, s) ← takeDigits 2 s
      let s ← expect ':' s
      let (minutes, s) ← takeDigits 2 s
      if s.isEmpty ∧ hours ≤ 23 ∧ minutes ≤ 59 then
        match sign with
        | '+' => some (some (hours * 60 + minutes))
        | '-' => some (some (-(hours * 60 + minutes)))
        | _ => none
      else none
  | [] => none

def scanDateTime (text : String) : Option DateTimeParts := do
  let (year, s) ← takeDigits 4 text.toList
  let (month, s) ← takeDigits 2 (← expect '-' s)
  let (day, s) ← takeDigits 2 (← expect '-' s)
  let (hour, s) ← takeDigits 2 (← expect 'T' s)
  let (minute, s) ← takeDigits 2 (← expect ':' s)
  let (second, millisecond, s) ← scanSeconds s
  let offsetMin ← scanOffset s
  return { year, month, day, hour, minute, second, millisecond, offsetMin }

def isLeapYear (year : ℕ) : Bool := year % 4 = 0 ∧ (year % 100 ≠ 0 ∨ year % 400 = 0)

def daysInMonth (year month : ℕ) : ℕ :=
  if month = 2 then if isLeapYear year then 29 else 28
  else if month ∈ [4, 6, 9, 11] then 30 else 31

/-- The calendar and clock ranges of the schema's pattern. -/
def DateTimeParts.InRange (p : DateTimeParts) : Prop :=
  1 ≤ p.month ∧ p.month ≤ 12 ∧ 1 ≤ p.day ∧ p.day ≤ daysInMonth p.year p.month ∧
    p.hour ≤ 23 ∧ p.minute ≤ 59 ∧ p.second ≤ 59

instance (p : DateTimeParts) : Decidable p.InRange :=
  inferInstanceAs (Decidable (_ ∧ _ ∧ _ ∧ _ ∧ _ ∧ _ ∧ _))

/-- A string `z.string().datetime({ offset: true })` accepts. -/
structure IsoDateTime where
  text : String
  parts : DateTimeParts
  scan : scanDateTime text = some parts
  inRange : parts.InRange

/-- The schema check on a string. -/
def IsoDateTime.ofString? (text : String) : Option IsoDateTime :=
  match h : scanDateTime text with
  | none => none
  | some parts => if hr : parts.InRange then some ⟨text, parts, h, hr⟩ else none

/-- The time value of `new Date(text)`. -/
def IsoDateTime.timeValue (d : IsoDateTime) : ℤ :=
  let p := d.parts
  daysFromCivil ⟨p.year, p.month, p.day⟩ * msPerDay +
    ((((p.hour * 60 + p.minute) * 60 + p.second) * 1000 + p.millisecond : ℕ) : ℤ) -
    p.offsetMin.getD 0 * 60000

example : (IsoDateTime.ofString? "2024-03-15T20:30:00+10:00").map (·.timeValue) =
    some 1710498600000 := by decide

/-! ### What `toISOString` writes is read back -/

theorem takeDigits_pad (n k : ℕ) (s : List Char) :
    takeDigits n (pad n k ++ s) = some (k % 10 ^ n, s) := by
  induction n with
  | zero => rw [pow_zero, Nat.mod_one]; rfl
  | succ n ih =>
      rw [pad_succ, List.cons_append, takeDigits, if_pos (isDigit_digit _), ih, Option.map_some,
        digit_toNat, Nat.mod_pow_succ, Nat.add_sub_cancel_left, Nat.mul_comm, Nat.add_comm]

/-- The time value of the timestamp with these fields. -/
def DateTimeParts.timeValue (p : DateTimeParts) : ℤ :=
  daysFromCivil ⟨p.year, p.month, p.day⟩ * msPerDay +
    ((((p.hour * 60 + p.minute) * 60 + p.second) * 1000 + p.millisecond : ℕ) : ℤ) -
    p.offsetMin.getD 0 * 60000

theorem millisecondsOf_pad (ms : ℕ) : millisecondsOf (pad 3 ms) = ms % 1000 := by
  have hdigits : pad 3 ms = [digit (ms / 100), digit (ms / 10), digit ms] := by
    rw [pad_succ, pad_succ, pad_succ]
    simp [pad]
  rw [hdigits]
  simp only [millisecondsOf, List.getElem?_cons_zero, List.getElem?_cons_succ, Option.map_some,
    Option.getD_some, digit_toNat]
  omega

theorem takeWhile_pad (n k : ℕ) (ch : Char) (h : ch.isDigit = false) (s : List Char) :
    (pad n k ++ ch :: s).takeWhile Char.isDigit = pad n k ∧
      (pad n k ++ ch :: s).dropWhile Char.isDigit = ch :: s := by
  induction n with
  | zero => simp [pad, h]
  | succ n ih =>
      rw [pad_succ, List.cons_append, List.takeWhile_cons_of_pos (isDigit_digit _),
        List.dropWhile_cons_of_pos (isDigit_digit _), ih.1, ih.2]
      exact ⟨rfl, rfl⟩

theorem expect_self (ch : Char) (s : List Char) : expect ch (ch :: s) = some s := if_pos rfl

section

variable {β : Type}

theorem bind_takeDigits_pad (n k : ℕ) (s : List Char) (f : ℕ × List Char → Option β) :
    (takeDigits n (pad n k ++ s) >>= f) = f (k % 10 ^ n, s) := by
  rw [takeDigits_pad]
  rfl

theorem bind_expect_self (ch : Char) (s : List Char) (f : List Char → Option β) :
    (expect ch (ch :: s) >>= f) = f s := by
  rw [expect_self]
  rfl

end

theorem scanSeconds_pad (second ms : ℕ) (s : List Char) :
    scanSeconds (':' :: (pad 2 second ++ '.' :: (pad 3 ms ++ 'Z' :: s))) =
      some (second % 100, ms % 1000, 'Z' :: s) := by
  obtain ⟨htake, hdrop⟩ := takeWhile_pad 3 ms 'Z' (by decide) s
  have hne : (pad 3 ms).isEmpty = false := by rw [pad_succ]; rfl
  simp only [scanSeconds, expect_self, takeDigits_pad, Option.bind_eq_bind, Option.bind_some, htake,
    hdrop, hne, millisecondsOf_pad]
  rfl

/-- The fields an instant is written with. -/
def partsOf (t : ℤ) : DateTimeParts :=
  let c := civilFromDays (t / msPerDay)
  let minutes := (t % msPerDay / 60000).toNat
  let ms := (t % msPerDay).toNat
  { year := c.year.toNat, month := c.month.toNat, day := c.day.toNat
    hour := minutes / 60, minute := minutes % 60, second := ms / 1000 % 60
    millisecond := ms % 1000, offsetMin := none }

theorem scanDateTime_isoString {t : ℤ} (h : 0 ≤ yearOf t ∧ yearOf t ≤ 9999) :
    scanDateTime (isoString t) = some (partsOf t) := by
  have hmonth := civilFromDays_month (t / msPerDay)
  have hday := civilFromDays_day (t / msPerDay)
  have hms : 0 ≤ t % msPerDay ∧ t % msPerDay < 86400000 := by unfold msPerDay; omega
  unfold yearOf at h
  have hseconds := scanSeconds_pad ((t % msPerDay).toNat / 1000 % 60)
    ((t % msPerDay).toNat % 1000) []
  have hchars : (isoString t).toList = pad 4 (civilFromDays (t / msPerDay)).year.toNat ++ '-' ::
      (pad 2 (civilFromDays (t / msPerDay)).month.toNat ++ '-' ::
      (pad 2 (civilFromDays (t / msPerDay)).day.toNat ++ 'T' ::
      (pad 2 ((t % msPerDay / 60000).toNat / 60) ++ ':' ::
      (pad 2 ((t % msPerDay / 60000).toNat % 60) ++ ':' ::
      (pad 2 ((t % msPerDay).toNat / 1000 % 60) ++ '.' ::
      (pad 3 ((t % msPerDay).toNat % 1000) ++ ['Z'])))))) := by
    simp only [isoString, String.toList_ofList, isoChars, isoMinuteChars, isoYear_four h,
      List.append_assoc, List.cons_append]
  rw [scanDateTime, hchars]
  simp only [↓bind_takeDigits_pad, ↓bind_expect_self, hseconds, Option.bind_eq_bind,
    Option.bind_some, scanOffset, Option.pure_def, partsOf, Option.some.injEq,
    DateTimeParts.mk.injEq, and_true]
  refine ⟨?_, ?_, ?_, ?_, ?_, ?_, ?_⟩ <;> omega

theorem timeValue_partsOf {t : ℤ} (h : 0 ≤ yearOf t) : (partsOf t).timeValue = t := by
  have hmonth := civilFromDays_month (t / msPerDay)
  have hday := civilFromDays_day (t / msPerDay)
  have hms : 0 ≤ t % msPerDay ∧ t % msPerDay < 86400000 := by unfold msPerDay; omega
  unfold yearOf at h
  have hcivil : (⟨((civilFromDays (t / msPerDay)).year.toNat : ℤ),
      ((civilFromDays (t / msPerDay)).month.toNat : ℤ),
      ((civilFromDays (t / msPerDay)).day.toNat : ℤ)⟩ : Civil) = civilFromDays (t / msPerDay) :=
    Civil.ext (by simpa using h) (by simp; omega) (by simp; omega)
  simp only [DateTimeParts.timeValue, partsOf, hcivil, daysFromCivil_civilFromDays,
    Option.getD_none]
  have hsplit : t = t / msPerDay * msPerDay + t % msPerDay := by
    unfold msPerDay
    omega
  generalize t % msPerDay = r at hms hsplit
  generalize t / msPerDay = d at hsplit
  unfold msPerDay at *
  omega

/-- A date with a sign before its year is not read. -/
theorem scanDateTime_signed {t : ℤ} (h : ¬ (0 ≤ yearOf t ∧ yearOf t ≤ 9999)) :
    scanDateTime (isoString t) = none := by
  obtain ⟨ch, hch, hsign⟩ := isoChars_head_of_signed h
  obtain ⟨s, hs⟩ := List.head?_eq_some_iff.mp hch
  have hdigit : ch.isDigit = false := by
    rw [Char.isDigit, Bool.and_eq_false_iff]
    exact .inl (decide_eq_false fun h =>
      absurd (UInt32.le_iff_toNat_le.mp h) (Nat.not_le.mpr hsign))
  rw [scanDateTime, isoString, String.toList_ofList, hs, takeDigits, hdigit]
  rfl

/-! ### How far a timestamp lies from the epoch -/

theorem digitValue_le {ch : Char} (h : ch.isDigit = true) : ch.toNat - 48 ≤ 9 := by
  have hle : ch.toNat ≤ 57 := (Char.isDigit_iff_toNat.mp h).2
  omega

theorem takeDigits_lt {n k : ℕ} {s rest : List Char} (h : takeDigits n s = some (k, rest)) :
    k < 10 ^ n := by
  induction n generalizing s k rest with
  | zero =>
      obtain ⟨rfl, _⟩ : 0 = k ∧ s = rest := by simpa [takeDigits] using h
      exact Nat.one_pos
  | succ n ih =>
      cases s with
      | nil => simp [takeDigits] at h
      | cons ch s =>
          rw [takeDigits] at h
          split at h
          · rename_i hdigit
            obtain ⟨⟨low, s'⟩, hlow, heq⟩ := Option.map_eq_some_iff.mp h
            obtain ⟨rfl, _⟩ := Prod.mk.inj heq
            have hhigh := Nat.mul_le_mul_right (10 ^ n) (digitValue_le hdigit)
            have := ih hlow
            rw [Nat.pow_succ]
            omega
          · exact absurd h (by simp)

theorem millisecondsOf_lt {fraction : List Char} (h : ∀ ch ∈ fraction, ch.isDigit = true) :
    millisecondsOf fraction < 1000 := by
  have hnine (i : ℕ) : (fraction[i]?.map fun ch => ch.toNat - 48).getD 0 ≤ 9 := by
    cases hi : fraction[i]? with
    | none => simp
    | some ch =>
        exact digitValue_le (h ch (List.mem_of_getElem? hi))
  have h0 := hnine 0
  have h1 := hnine 1
  have h2 := hnine 2
  simp only [millisecondsOf]
  omega

theorem scanSeconds_lt {s rest : List Char} {second millisecond : ℕ}
    (h : scanSeconds s = some (second, millisecond, rest)) : millisecond < 1000 := by
  unfold scanSeconds at h
  split at h
  · obtain ⟨_, rfl, _⟩ : 0 = second ∧ 0 = millisecond ∧ _ := by simpa using h
    exact Nat.zero_lt_succ _
  · obtain ⟨⟨k, s'⟩, _, h⟩ := Option.bind_eq_some_iff.mp h
    dsimp only at h
    split at h
    · obtain ⟨_, rfl, _⟩ : k = second ∧ 0 = millisecond ∧ _ := by simpa using h
      exact Nat.zero_lt_succ _
    · rename_i fraction _
      split at h
      · exact absurd h (by simp)
      · obtain ⟨_, rfl, _⟩ : k = second ∧ millisecondsOf _ = millisecond ∧ _ := by simpa using h
        exact millisecondsOf_lt (List.all_eq_true.mp List.all_takeWhile)

theorem scanOffset_le {s : List Char} {offsetMin : Option ℤ}
    (h : scanOffset s = some offsetMin) :
    -1440 < offsetMin.getD 0 ∧ offsetMin.getD 0 < 1440 := by
  unfold scanOffset at h
  split at h
  · obtain rfl : none = offsetMin := by simpa using h
    simp
  · obtain ⟨⟨hours, s⟩, _, h⟩ := Option.bind_eq_some_iff.mp h
    obtain ⟨s, _, h⟩ := Option.bind_eq_some_iff.mp h
    obtain ⟨⟨minutes, s⟩, _, h⟩ := Option.bind_eq_some_iff.mp h
    dsimp only at h
    split at h
    · rename_i hrange
      obtain ⟨_, hhours, hminutes⟩ := hrange
      split at h
      · obtain rfl := Option.some.inj h
        simp only [Option.getD_some]
        omega
      · obtain rfl := Option.some.inj h
        simp only [Option.getD_some]
        omega
      · exact absurd h (by simp)
    · exact absurd h (by simp)
  · exact absurd h (by simp)

/-- What the pattern leaves open: the year, the fraction and the offset. -/
theorem scanDateTime_bounds {text : String} {p : DateTimeParts} (h : scanDateTime text = some p) :
    p.year < 10000 ∧ p.millisecond < 1000 ∧ -1440 < p.offsetMin.getD 0 ∧
      p.offsetMin.getD 0 < 1440 := by
  simp only [scanDateTime, Option.bind_eq_bind, Option.bind_eq_some_iff, Prod.exists] at h
  obtain ⟨year, s, hyear, s, _, month, s, _, s, _, day, s, _, s, _, hour, s, _, s, _, minute, s, _,
    second, millisecond, s, hseconds, offsetMin, hoffset, hp⟩ := h
  obtain rfl := Option.some.inj hp
  exact ⟨takeDigits_lt hyear, scanSeconds_lt hseconds, scanOffset_le hoffset⟩

theorem daysInMonth_le (year month : ℕ) : daysInMonth year month ≤ 31 := by
  unfold daysInMonth
  split_ifs <;> omega

/-- Every date the schemas admit is one that `toISOString` writes. -/
theorem IsoDateTime.toISOString_timeValue (d : IsoDateTime) :
    toISOString d.timeValue = .ok d.timeValue := by
  obtain ⟨hyear, hmillisecond, hoffset, hoffset'⟩ := scanDateTime_bounds d.scan
  obtain ⟨hmonth, hmonth', hday, hday', hhour, hminute, hsecond⟩ := d.inRange
  have hdays := daysInMonth_le d.parts.year d.parts.month
  have hcivil : -800000 ≤ daysFromCivil ⟨d.parts.year, d.parts.month, d.parts.day⟩ ∧
      daysFromCivil ⟨d.parts.year, d.parts.month, d.parts.day⟩ ≤ 3000000 := by
    simp only [daysFromCivil]
    omega
  refine if_pos ?_
  simp only [IsoDateTime.timeValue, maxTimeValue, msPerDay]
  omega

/-! ### The written date and time -/

/-- The fields as they are written, whatever the offset. -/
def DateTimeParts.wallClock (p : DateTimeParts) : DateTimeParts := { p with offsetMin := none }

theorem lastDay_eq (year month : ℕ) : lastDay year month = daysInMonth year month := by
  have hleap : (isLeapYear year = true) ↔
      (year : ℤ) % 4 = 0 ∧ ((year : ℤ) % 100 ≠ 0 ∨ (year : ℤ) % 400 = 0) := by
    rw [isLeapYear, decide_eq_true_eq]
    omega
  simp only [lastDay, daysInMonth, hleap, List.mem_cons, List.not_mem_nil, or_false]
  norm_cast

/-- An instant is written with the fields it was read from. -/
theorem partsOf_wallClock {p : DateTimeParts} (hrange : p.InRange) (hms : p.millisecond < 1000) :
    partsOf p.wallClock.timeValue = p.wallClock := by
  obtain ⟨hmonth, hmonth', hday, hday', hhour, hminute, hsecond⟩ := hrange
  have hlast : (p.day : ℤ) ≤ lastDay p.year p.month := by
    rw [lastDay_eq]
    exact_mod_cast hday'
  have hmonths : 1 ≤ (p.month : ℤ) ∧ (p.month : ℤ) ≤ 12 := by omega
  have hfirst : 1 ≤ (p.day : ℤ) := by omega
  have hcivil : civilFromDays (daysFromCivil ⟨p.year, p.month, p.day⟩) =
      ⟨p.year, p.month, p.day⟩ := civilFromDays_daysFromCivil hmonths ⟨hfirst, hlast⟩
  have htime : p.wallClock.timeValue = daysFromCivil ⟨p.year, p.month, p.day⟩ * msPerDay +
      ((((p.hour * 60 + p.minute) * 60 + p.second) * 1000 + p.millisecond : ℕ) : ℤ) := by
    simp only [DateTimeParts.timeValue, DateTimeParts.wallClock, Option.getD_none]
    omega
  have hdays : p.wallClock.timeValue / msPerDay = daysFromCivil ⟨p.year, p.month, p.day⟩ := by
    rw [htime]
    unfold msPerDay
    omega
  have hrest : p.wallClock.timeValue % msPerDay =
      ((((p.hour * 60 + p.minute) * 60 + p.second) * 1000 + p.millisecond : ℕ) : ℤ) := by
    rw [htime]
    unfold msPerDay
    omega
  generalize p.wallClock.timeValue = t at hdays hrest
  simp only [partsOf, hdays, hrest, hcivil, DateTimeParts.wallClock, DateTimeParts.mk.injEq,
    Int.toNat_natCast, true_and, and_true]
  refine ⟨?_, ?_, ?_, ?_⟩ <;> omega

end PureplayIngest.Shared
