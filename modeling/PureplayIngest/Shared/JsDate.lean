import Mathlib.Data.String.Basic
import PureplayIngest.Lib.Calendar
import PureplayIngest.Lib.Decimal

/-!
The part of JavaScript's `Date` the service relies on.

A `Date` is its time value, an integral number of milliseconds since the
epoch; `toISOString` throws once it leaves the range a `Date` can hold. The
timestamps the service passes around are strings `toISOString` wrote, and
all it does with them is to read the time value back, to compare it, or to
cut the string after the minutes. They are therefore kept as instants here,
milliseconds since 1970-01-01T00:00:00Z, and `isoString` writes the string
where its characters matter.

Timestamps that come from a vendor are strings of the shape the schemas
admit, ISO 8601 with optional seconds and fraction and with `Z` or a signed
offset; `IsoDateTime` is such a string together with what it says.
-/

namespace PureplayIngest.Shared

open Lib

/-- What the modelled code can throw. -/
inductive JsError
  | rangeError (message : String)
  | internalServerError (message : String)
  deriving DecidableEq, Repr

def msPerDay : ℤ := 86400000

/-- The largest magnitude of a time value. -/
def maxTimeValue : ℤ := 8640000000000000

/-- `new Date(t).toISOString()`, as the instant the string denotes. -/
def toISOString (t : ℤ) : Except JsError ℤ :=
  if -maxTimeValue ≤ t ∧ t ≤ maxTimeValue then .ok t
  else .error (.rangeError "Invalid time value")

theorem toISOString_ok {t u : ℤ} (h : toISOString t = .ok u) : u = t := by
  unfold toISOString at h
  split at h
  · exact (Except.ok.inj h).symm
  · exact absurd h (by simp)

/-- The calendar year of an instant, in UTC. -/
def yearOf (t : ℤ) : ℤ := (civilFromDays (t / msPerDay)).year

/-- Years outside 0000 to 9999 carry a sign and six digits. -/
def isoYear (y : ℤ) : List Char :=
  if 0 ≤ y ∧ y ≤ 9999 then pad 4 y.toNat
  else (if y < 0 then '-' else '+') :: pad 6 y.natAbs

/-- Date, hours and minutes of an ISO string, up to and without the seconds. -/
def isoMinuteChars (t : ℤ) : List Char :=
  let c := civilFromDays (t / msPerDay)
  let minutes := (t % msPerDay / 60000).toNat
  isoYear c.year ++ ('-' :: pad 2 c.month.toNat ++ ('-' :: pad 2 c.day.toNat ++
    ('T' :: pad 2 (minutes / 60) ++ (':' :: pad 2 (minutes % 60)))))

/-- The characters `toISOString` writes for an instant. -/
def isoChars (t : ℤ) : List Char :=
  let ms := (t % msPerDay).toNat
  isoMinuteChars t ++ (':' :: pad 2 (ms / 1000 % 60) ++ ('.' :: pad 3 (ms % 1000) ++ ['Z']))

def isoString (t : ℤ) : String := String.ofList (isoChars t)

example : isoString 1710498645000 = "2024-03-15T10:30:45.000Z" := by decide

/-! ### The characters up to the minute determine the minute -/

theorem civilFromDays_of_minute {t u : ℤ} (h : t / 60000 = u / 60000) :
    t / msPerDay = u / msPerDay ∧ t % msPerDay / 60000 = u % msPerDay / 60000 := by
  unfold msPerDay
  omega

theorem isoMinuteChars_congr {t u : ℤ} (h : t / 60000 = u / 60000) :
    isoMinuteChars t = isoMinuteChars u := by
  obtain ⟨hday, hmin⟩ := civilFromDays_of_minute h
  simp only [isoMinuteChars, hday, hmin]

theorem isoYear_four {y : ℤ} (h : 0 ≤ y ∧ y ≤ 9999) : isoYear y = pad 4 y.toNat := by
  simp [isoYear, h]

theorem length_isoMinuteChars {t : ℤ} (h : 0 ≤ yearOf t ∧ yearOf t ≤ 9999) :
    (isoMinuteChars t).length = 16 := by
  unfold yearOf at h
  simp only [isoMinuteChars, isoYear_four h, List.length_append, List.length_cons, length_pad]

theorem isoMinuteChars_take {t : ℤ} (h : 0 ≤ yearOf t ∧ yearOf t ≤ 9999) :
    (isoChars t).take 16 = isoMinuteChars t := by
  rw [isoChars, ← length_isoMinuteChars h, List.take_left]

theorem isoChars_head_of_four {t : ℤ} (h : 0 ≤ yearOf t ∧ yearOf t ≤ 9999) :
    ∃ ch ∈ (isoChars t).head?, 48 ≤ ch.toNat := by
  unfold yearOf at h
  generalize hrest : isoChars t = s
  simp only [isoChars, isoMinuteChars, isoYear_four h] at hrest
  cases hpad : pad 4 (civilFromDays (t / msPerDay)).year.toNat with
  | nil => simpa using congrArg List.length hpad
  | cons ch tail =>
      rw [hpad] at hrest
      subst hrest
      exact ⟨ch, rfl, (mem_pad (hpad ▸ List.mem_cons_self)).1⟩

/-- A year outside 0000 to 9999 is written with a sign in front. -/
theorem isoChars_head_of_signed {t : ℤ} (h : ¬ (0 ≤ yearOf t ∧ yearOf t ≤ 9999)) :
    ∃ ch ∈ (isoChars t).head?, ch.toNat < 48 := by
  unfold yearOf at h
  by_cases hneg : (civilFromDays (t / msPerDay)).year < 0
  · exact ⟨'-', by simp [isoChars, isoMinuteChars, isoYear, h, hneg], by decide⟩
  · exact ⟨'+', by simp [isoChars, isoMinuteChars, isoYear, h, hneg], by decide⟩

theorem isoMinuteChars_inj {t u : ℤ} (ht : 0 ≤ yearOf t ∧ yearOf t ≤ 9999)
    (hu : 0 ≤ yearOf u ∧ yearOf u ≤ 9999) (h : isoMinuteChars t = isoMinuteChars u) :
    t / 60000 = u / 60000 := by
  unfold yearOf at ht hu
  simp only [isoMinuteChars, isoYear_four ht, isoYear_four hu] at h
  obtain ⟨hyear, h⟩ := List.append_inj h (by simp)
  obtain ⟨hmonth, h⟩ := List.append_inj (List.cons_inj_right _ |>.mp h) (by simp)
  obtain ⟨hday, h⟩ := List.append_inj (List.cons_inj_right _ |>.mp h) (by simp)
  obtain ⟨hhour, h⟩ := List.append_inj (List.cons_inj_right _ |>.mp h) (by simp)
  have hminute := List.cons_inj_right _ |>.mp h
  have hmt := civilFromDays_month (t / msPerDay)
  have hmu := civilFromDays_month (u / msPerDay)
  have hdt := civilFromDays_day (t / msPerDay)
  have hdu := civilFromDays_day (u / msPerDay)
  have hms : 0 ≤ t % msPerDay ∧ t % msPerDay < 86400000 := by unfold msPerDay; omega
  have hms' : 0 ≤ u % msPerDay ∧ u % msPerDay < 86400000 := by unfold msPerDay; omega
  -- Each numeral is in range for its width, so the fields agree one by one.
  have eyear := pad_inj (n := 4) (by omega) (by omega) hyear
  have emonth := pad_inj (n := 2) (by omega) (by omega) hmonth
  have eday := pad_inj (n := 2) (by omega) (by omega) hday
  have ehour := pad_inj (n := 2) (by omega) (by omega) hhour
  have eminute := pad_inj (n := 2) (by omega) (by omega) hminute
  have hcivil : civilFromDays (t / msPerDay) = civilFromDays (u / msPerDay) :=
    Civil.ext (by omega) (by omega) (by omega)
  have hdays := civilFromDays_injective hcivil
  unfold msPerDay at *
  omega

/-- Two instants are written alike up to the minutes when they lie in the
same minute, and only then if one of them has a four-digit year. -/
theorem isoChars_take_eq_iff {t u : ℤ} (ht : 0 ≤ yearOf t ∧ yearOf t ≤ 9999) :
    (isoChars t).take 16 = (isoChars u).take 16 ↔ t / 60000 = u / 60000 := by
  by_cases hu : 0 ≤ yearOf u ∧ yearOf u ≤ 9999
  · rw [isoMinuteChars_take ht, isoMinuteChars_take hu]
    exact ⟨isoMinuteChars_inj ht hu, isoMinuteChars_congr⟩
  · constructor
    · intro h
      -- A digit on one side, a sign on the other.
      obtain ⟨ch, hch, hdigit⟩ := isoChars_head_of_four ht
      obtain ⟨ch', hch', hsign⟩ := isoChars_head_of_signed hu
      have hhead := congrArg List.head? h
      simp only [List.head?_take, OfNat.ofNat_ne_zero, if_false] at hhead
      rw [hhead] at hch
      obtain rfl := Option.mem_unique hch hch'
      omega
    · intro h
      have hday := (civilFromDays_of_minute h).1
      unfold yearOf at ht hu
      rw [hday] at ht
      exact absurd ht hu

/-! ### Strings in the order of the instants -/

/-- The fields two instants are written with, up to the first that differs. -/
theorem fields_lt {t u : ℤ} (h : t < u) :
    let c := civilFromDays (t / msPerDay)
    let c' := civilFromDays (u / msPerDay)
    let m := (t % msPerDay / 60000).toNat
    let m' := (u % msPerDay / 60000).toNat
    let ms := (t % msPerDay).toNat
    let ms' := (u % msPerDay).toNat
    c.year < c'.year ∨ c.year = c'.year ∧ (c.month < c'.month ∨ c.month = c'.month ∧
      (c.day < c'.day ∨ c.day = c'.day ∧ (m / 60 < m' / 60 ∨ m / 60 = m' / 60 ∧
        (m % 60 < m' % 60 ∨ m % 60 = m' % 60 ∧
          (ms / 1000 % 60 < ms' / 1000 % 60 ∨ ms / 1000 % 60 = ms' / 1000 % 60 ∧
            ms % 1000 < ms' % 1000))))) := by
  have hmonth := civilFromDays_month (t / msPerDay)
  have hmonth' := civilFromDays_month (u / msPerDay)
  obtain hday | hday : t / msPerDay < u / msPerDay ∨
      t / msPerDay = u / msPerDay ∧ t % msPerDay < u % msPerDay := by
    unfold msPerDay
    omega
  · have hdates := civilFromDays_lt hday
    dsimp only
    omega
  · rw [hday.1]
    have hlow : 0 ≤ t % msPerDay := by unfold msPerDay; omega
    have hhigh : u % msPerDay < 86400000 := by unfold msPerDay; omega
    refine .inr ⟨rfl, .inr ⟨rfl, .inr ⟨rfl, ?_⟩⟩⟩
    omega

theorem yearOf_mono {t u : ℤ} (h : t < u) : yearOf t ≤ yearOf u := by
  have hfields := fields_lt h
  unfold yearOf
  dsimp only at hfields
  omega

/-- What an ISO string has after its year. -/
def afterYear (t : ℤ) : List Char :=
  let c := civilFromDays (t / msPerDay)
  let minutes := (t % msPerDay / 60000).toNat
  let ms := (t % msPerDay).toNat
  '-' :: (pad 2 c.month.toNat ++ '-' :: (pad 2 c.day.toNat ++ 'T' :: (pad 2 (minutes / 60) ++
    ':' :: (pad 2 (minutes % 60) ++ ':' :: (pad 2 (ms / 1000 % 60) ++
      '.' :: (pad 3 (ms % 1000) ++ ['Z']))))))

theorem isoChars_eq (t : ℤ) : isoChars t = isoYear (yearOf t) ++ afterYear t := by
  simp only [isoChars, isoMinuteChars, afterYear, yearOf, List.append_assoc, List.cons_append]

theorem afterYear_lt {t u : ℤ} (hyear : yearOf t = yearOf u) (h : t < u) :
    afterYear t < afterYear u := by
  have hmt := civilFromDays_month (t / msPerDay)
  have hmu := civilFromDays_month (u / msPerDay)
  have hdt := civilFromDays_day (t / msPerDay)
  have hdu := civilFromDays_day (u / msPerDay)
  have hms : 0 ≤ t % msPerDay ∧ t % msPerDay < 86400000 := by unfold msPerDay; omega
  have hms' : 0 ≤ u % msPerDay ∧ u % msPerDay < 86400000 := by unfold msPerDay; omega
  unfold yearOf at hyear
  obtain hlt | ⟨-, h⟩ := fields_lt h
  · omega
  have numeral {n k k' : ℕ} {s s' : List Char} {ch : Char} (hk : k < 10 ^ n) (hk' : k' < 10 ^ n)
      (h : k < k' ∨ k = k' ∧ s < s') : ch :: (pad n k ++ s) < ch :: (pad n k' ++ s') :=
    List.cons_lt_cons_self.mpr (pad_append_lt hk hk' h)
  unfold afterYear
  refine numeral (by omega) (by omega)
    (h.imp (fun h => by omega) fun ⟨hmonth, h⟩ => ⟨by rw [hmonth], ?_⟩)
  refine numeral (by omega) (by omega)
    (h.imp (fun h => by omega) fun ⟨hday, h⟩ => ⟨by rw [hday], ?_⟩)
  refine numeral (by omega) (by omega) (h.imp_right fun ⟨hhour, h⟩ => ⟨hhour, ?_⟩)
  refine numeral (by omega) (by omega) (h.imp_right fun ⟨hminute, h⟩ => ⟨hminute, ?_⟩)
  refine numeral (by omega) (by omega) (h.imp_right fun ⟨hsecond, h⟩ => ⟨hsecond, ?_⟩)
  exact numeral (by omega) (by omega) (.inl h)

/-- A numeral that ascends with the years is in front. -/
theorem numeral_afterYear_lt {t u : ℤ} {n k k' : ℕ} (hk : k < 10 ^ n) (hk' : k' < 10 ^ n)
    (hlt : yearOf t < yearOf u → k < k') (heq : yearOf t = yearOf u → k = k') (h : t < u) :
    pad n k ++ afterYear t < pad n k' ++ afterYear u := by
  apply pad_append_lt hk hk'
  rcases (yearOf_mono h).lt_or_eq with hyear | hyear
  · exact .inl (hlt hyear)
  · exact .inr ⟨heq hyear, afterYear_lt hyear h⟩

theorem isoString_lt_iff_chars {t u : ℤ} : isoString t < isoString u ↔
    isoYear (yearOf t) ++ afterYear t < isoYear (yearOf u) ++ afterYear u := by
  rw [String.lt_iff_toList_lt, isoString, isoString, String.toList_ofList, String.toList_ofList,
    isoChars_eq, isoChars_eq]

/-- Within one year strings are compared as the instants are, whatever the year. -/
theorem isoString_lt_of_year {t u : ℤ} (hyear : yearOf t = yearOf u) (h : t < u) :
    isoString t < isoString u := by
  rw [isoString_lt_iff_chars, hyear]
  exact List.append_left_lt (afterYear_lt hyear h)

/-- Within the years 0000 to 9999 strings are compared as the instants are. -/
theorem isoString_lt {t u : ℤ} (ht : 0 ≤ yearOf t ∧ yearOf t ≤ 9999)
    (hu : 0 ≤ yearOf u ∧ yearOf u ≤ 9999) (h : t < u) : isoString t < isoString u := by
  rw [isoString_lt_iff_chars, isoYear_four ht, isoYear_four hu]
  exact numeral_afterYear_lt (by omega) (by omega) (by omega) (fun heq => by rw [heq]) h

/-! ### Strings with a signed year

A plus sign is smaller than a minus sign, which is smaller than a digit, and
below year 0000 it is the magnitudes that are compared.
-/

/-- The years of the instants a `Date` can hold have at most six digits. -/
theorem yearOf_bounds {t : ℤ} (h : -maxTimeValue ≤ t ∧ t ≤ maxTimeValue) :
    -271821 ≤ yearOf t ∧ yearOf t ≤ 275761 := by
  obtain ⟨y, doy, hz, hdoy, hdoy', -, hmonths, -⟩ := civilFromDays_march (t / msPerDay)
  have hmonth := civilFromDays_month (t / msPerDay)
  unfold yearOf
  unfold marchFirst at hz
  unfold msPerDay at *
  unfold maxTimeValue at h
  omega

theorem isoYear_plus {y : ℤ} (h : 9999 < y) : isoYear y = '+' :: pad 6 y.toNat := by
  have hfour : ¬ (0 ≤ y ∧ y ≤ 9999) := by omega
  have hneg : ¬ y < 0 := by omega
  have habs : y.natAbs = y.toNat := by omega
  rw [isoYear, if_neg hfour, if_neg hneg, habs]

theorem isoYear_minus {y : ℤ} (h : y < 0) : isoYear y = '-' :: pad 6 y.natAbs := by
  have hfour : ¬ (0 ≤ y ∧ y ≤ 9999) := by omega
  rw [isoYear, if_neg hfour, if_pos h]

theorem isoString_lt_of_plus {t u : ℤ} (ht : 9999 < yearOf t) (hu : yearOf u ≤ 275761)
    (h : t < u) : isoString t < isoString u := by
  have hmono := yearOf_mono h
  rw [isoString_lt_iff_chars, isoYear_plus ht, isoYear_plus (by omega)]
  apply List.cons_lt_cons_self.mpr
  exact numeral_afterYear_lt (by omega) (by omega) (by omega) (fun heq => by rw [heq]) h

/-- The earlier of two years below 0000 has the greater numeral. -/
theorem isoString_lt_of_minus {t u : ℤ} (ht : -271821 ≤ yearOf t) (hu : yearOf u < 0)
    (h : yearOf t < yearOf u) : isoString u < isoString t := by
  rw [isoString_lt_iff_chars, isoYear_minus hu, isoYear_minus (by omega)]
  apply List.cons_lt_cons_self.mpr
  apply pad_append_lt (by omega) (by omega)
  left
  omega

/-- Years above 9999 come before all others. -/
theorem isoString_plus_lt {t u : ℤ} (ht : 9999 < yearOf t) (hu : yearOf u ≤ 9999) :
    isoString t < isoString u := by
  rw [isoString_lt_iff_chars, isoYear_plus ht]
  by_cases hneg : yearOf u < 0
  · rw [isoYear_minus hneg]
    exact List.Lex.rel (by decide)
  · rw [isoYear_four (by omega), pad_succ]
    exact List.Lex.rel (lt_digit (by decide) _)

/-- Years below 0000 come before those of four digits. -/
theorem isoString_minus_lt {t u : ℤ} (ht : yearOf t < 0) (hu : 0 ≤ yearOf u ∧ yearOf u ≤ 9999) :
    isoString t < isoString u := by
  rw [isoString_lt_iff_chars, isoYear_minus ht, isoYear_four hu, pad_succ]
  exact List.Lex.rel (lt_digit (by decide) _)

end PureplayIngest.Shared
