import Mathlib.Data.Int.Order.Basic
import Mathlib.Tactic.NormNum

/-!
The proleptic Gregorian calendar, as arithmetic on day numbers counted from
1970-01-01.

Both directions go through the 400-year era: a year is counted from the
first of March, so that the leap day is the last day of its year and the
lengths of the months before a given one follow the single formula
`(153 * m + 2) / 5`. Division on `ℤ` rounds down here, so the formulas hold
before the epoch and before year zero as they stand.
-/

namespace PureplayIngest.Lib

@[ext] structure Civil where
  year : ℤ
  month : ℤ
  day : ℤ
  deriving DecidableEq, Repr

/-- The day number of a calendar date. -/
def daysFromCivil (c : Civil) : ℤ :=
  let y := if c.month ≤ 2 then c.year - 1 else c.year
  let era := y / 400
  let yoe := y - era * 400
  let mp := if c.month > 2 then c.month - 3 else c.month + 9
  let doy := (153 * mp + 2) / 5 + c.day - 1
  let doe := yoe * 365 + yoe / 4 - yoe / 100 + doy
  era * 146097 + doe - 719468

/-- Century of an era, from the day of the era. -/
def centuryOfEra (doe : ℤ) : ℤ := (4 * doe + 3) / 146097

/-- Year of its century, from the day of the century. -/
def yearOfCentury (doc : ℤ) : ℤ := (4 * doc + 3) / 1461

/-- The date that lies `doy` days after the first of March of year `yoe` of
the era. -/
def civilOfEra (era yoe doy : ℤ) : Civil :=
  let mp := (5 * doy + 2) / 153
  let month := if mp < 10 then mp + 3 else mp - 9
  { year := yoe + era * 400 + if month ≤ 2 then 1 else 0
    month := month
    day := doy - (153 * mp + 2) / 5 + 1 }

/-- The calendar date of a day number. -/
def civilFromDays (z : ℤ) : Civil :=
  let era := (z + 719468) / 146097
  let doe := (z + 719468) - era * 146097
  let doc := doe - 36524 * centuryOfEra doe
  let doy := doc - (365 * yearOfCentury doc + yearOfCentury doc / 4)
  civilOfEra era (100 * centuryOfEra doe + yearOfCentury doc) doy

theorem centuryOfEra_bounds {doe : ℤ} (h0 : 0 ≤ doe) (h1 : doe < 146097) :
    0 ≤ centuryOfEra doe ∧ centuryOfEra doe ≤ 3 := by
  unfold centuryOfEra
  omega

theorem dayOfCentury_bounds {doe : ℤ} (h0 : 0 ≤ doe) (h1 : doe < 146097) :
    0 ≤ doe - 36524 * centuryOfEra doe ∧ doe - 36524 * centuryOfEra doe ≤ 36524 := by
  unfold centuryOfEra
  omega

theorem yearOfCentury_bounds {doc : ℤ} (h0 : 0 ≤ doc) (h1 : doc ≤ 36524) :
    0 ≤ yearOfCentury doc ∧ yearOfCentury doc ≤ 99 := by
  unfold yearOfCentury
  omega

theorem dayOfYear_bounds (doc : ℤ) :
    0 ≤ doc - (365 * yearOfCentury doc + yearOfCentury doc / 4) ∧
      doc - (365 * yearOfCentury doc + yearOfCentury doc / 4) ≤ 365 := by
  unfold yearOfCentury
  omega

theorem civilOfEra_month (era yoe : ℤ) {doy : ℤ} (h : 0 ≤ doy ∧ doy ≤ 365) :
    1 ≤ (civilOfEra era yoe doy).month ∧ (civilOfEra era yoe doy).month ≤ 12 := by
  simp only [civilOfEra]
  split <;> omega

theorem civilOfEra_day (era yoe doy : ℤ) :
    1 ≤ (civilOfEra era yoe doy).day ∧ (civilOfEra era yoe doy).day ≤ 31 := by
  simp only [civilOfEra]
  omega

theorem daysFromCivil_civilOfEra (era : ℤ) {yoe doy : ℤ} (hyoe : 0 ≤ yoe ∧ yoe ≤ 399)
    (hdoy : 0 ≤ doy ∧ doy ≤ 365) :
    daysFromCivil (civilOfEra era yoe doy) =
      era * 146097 + (yoe * 365 + yoe / 4 - yoe / 100 + doy) - 719468 := by
  simp only [civilOfEra, daysFromCivil]
  -- January and February belong to the year that began the March before.
  by_cases hlow : (5 * doy + 2) / 153 < 10
  · have hle : ¬ (5 * doy + 2) / 153 + 3 ≤ 2 := by omega
    have hgt : (5 * doy + 2) / 153 + 3 > 2 := by omega
    simp only [hlow, hle, hgt, if_true, if_false]
    omega
  · have hle : (5 * doy + 2) / 153 - 9 ≤ 2 := by omega
    have hgt : ¬ (5 * doy + 2) / 153 - 9 > 2 := by omega
    simp only [hlow, hle, hgt, if_true, if_false]
    omega

/-- A day number is recovered from its calendar date. -/
theorem daysFromCivil_civilFromDays (z : ℤ) : daysFromCivil (civilFromDays z) = z := by
  have h0 : 0 ≤ z + 719468 - (z + 719468) / 146097 * 146097 := by omega
  have h1 : z + 719468 - (z + 719468) / 146097 * 146097 < 146097 := by omega
  have hc := centuryOfEra_bounds h0 h1
  have hdoc := dayOfCentury_bounds h0 h1
  have hy := yearOfCentury_bounds hdoc.1 hdoc.2
  simp only [civilFromDays]
  rw [daysFromCivil_civilOfEra _ (by omega) (dayOfYear_bounds _)]
  omega

theorem civilFromDays_injective : Function.Injective civilFromDays :=
  Function.LeftInverse.injective daysFromCivil_civilFromDays

theorem civilFromDays_month (z : ℤ) :
    1 ≤ (civilFromDays z).month ∧ (civilFromDays z).month ≤ 12 :=
  civilOfEra_month _ _ (dayOfYear_bounds _)

theorem civilFromDays_day (z : ℤ) :
    1 ≤ (civilFromDays z).day ∧ (civilFromDays z).day ≤ 31 :=
  civilOfEra_day _ _ _

theorem civilOfEra_year (era yoe doy : ℤ) :
    yoe + era * 400 ≤ (civilOfEra era yoe doy).year ∧
      (civilOfEra era yoe doy).year ≤ yoe + era * 400 + 1 ∧
      (0 ≤ doy ∧ doy ≤ 305 → (civilOfEra era yoe doy).year = yoe + era * 400) := by
  simp only [civilOfEra]
  split <;> split <;> omega

/-- Years 0 to 9999 hold the days up to the end of year 9999. -/
theorem civilFromDays_year {z : ℤ} (h : -719162 ≤ z ∧ z ≤ 2932896) :
    0 ≤ (civilFromDays z).year ∧ (civilFromDays z).year ≤ 9999 := by
  have h0 : 0 ≤ z + 719468 - (z + 719468) / 146097 * 146097 := by omega
  have h1 : z + 719468 - (z + 719468) / 146097 * 146097 < 146097 := by omega
  have hera : 0 ≤ (z + 719468) / 146097 ∧ ((z + 719468) / 146097 < 24 ∨
      (z + 719468) / 146097 = 24 ∧ z + 719468 - (z + 719468) / 146097 * 146097 ≤ 146036) := by omega
  have hc := centuryOfEra_bounds h0 h1
  have hdoc := dayOfCentury_bounds h0 h1
  have hy := yearOfCentury_bounds hdoc.1 hdoc.2
  simp only [civilFromDays]
  generalize z + 719468 - (z + 719468) / 146097 * 146097 = doe at *
  generalize (z + 719468) / 146097 = era at *
  have hdoy := dayOfYear_bounds (doe - 36524 * centuryOfEra doe)
  obtain ⟨hlow, hhigh, heq⟩ := civilOfEra_year era
    (100 * centuryOfEra doe + yearOfCentury (doe - 36524 * centuryOfEra doe))
    (doe - 36524 * centuryOfEra doe -
      (365 * yearOfCentury (doe - 36524 * centuryOfEra doe) +
        yearOfCentury (doe - 36524 * centuryOfEra doe) / 4))
  generalize (civilOfEra era _ _).year = year at *
  -- The last day of the era that counts is the last of December of its year 399.
  have hlast : centuryOfEra doe = 3 → yearOfCentury (doe - 36524 * centuryOfEra doe) = 99 →
      doe ≤ 146036 → doe - 36524 * centuryOfEra doe -
        (365 * yearOfCentury (doe - 36524 * centuryOfEra doe) +
          yearOfCentury (doe - 36524 * centuryOfEra doe) / 4) ≤ 305 := by
    intro hc hy hdoe
    rw [hy, hc]
    omega
  omega

/-! ### The calendar keeps the order of the days -/

/-- The day number of the first of March of a year. -/
def marchFirst (y : ℤ) : ℤ := 365 * y + y / 4 - y / 100 + y / 400 - 719468

theorem marchFirst_mono {y y' : ℤ} (h : y ≤ y') : marchFirst y ≤ marchFirst y' := by
  unfold marchFirst
  omega

/-- A date by the March its year is counted from and by the days since. -/
theorem civilFromDays_march (z : ℤ) : ∃ y doy, z = marchFirst y + doy ∧ 0 ≤ doy ∧ doy ≤ 365 ∧
    z < marchFirst (y + 1) ∧
    12 * (civilFromDays z).year + (civilFromDays z).month = 12 * y + (5 * doy + 2) / 153 + 3 ∧
    (civilFromDays z).day = doy - (153 * ((5 * doy + 2) / 153) + 2) / 5 + 1 := by
  have h0 : 0 ≤ z + 719468 - (z + 719468) / 146097 * 146097 := by omega
  have h1 : z + 719468 - (z + 719468) / 146097 * 146097 < 146097 := by omega
  have hz : z = (z + 719468) / 146097 * 146097 +
      (z + 719468 - (z + 719468) / 146097 * 146097) - 719468 := by omega
  simp only [civilFromDays, civilOfEra]
  generalize z + 719468 - (z + 719468) / 146097 * 146097 = doe at *
  generalize (z + 719468) / 146097 = era at *
  have hc := centuryOfEra_bounds h0 h1
  have hdoc := dayOfCentury_bounds h0 h1
  have hy := yearOfCentury_bounds hdoc.1 hdoc.2
  have hdoy := dayOfYear_bounds (doe - 36524 * centuryOfEra doe)
  have hnext : doe - 36524 * centuryOfEra doe <
      365 * (yearOfCentury (doe - 36524 * centuryOfEra doe) + 1) +
        (yearOfCentury (doe - 36524 * centuryOfEra doe) + 1) / 4 := by
    unfold yearOfCentury
    omega
  have hcentury : centuryOfEra doe ≤ 2 → doe - 36524 * centuryOfEra doe < 36524 := by
    unfold centuryOfEra
    omega
  have hdoe : doe = 36524 * centuryOfEra doe + (doe - 36524 * centuryOfEra doe) := by omega
  generalize doe - 36524 * centuryOfEra doe = doc at *
  generalize centuryOfEra doe = century at *
  generalize yearOfCentury doc = yoc at *
  refine ⟨era * 400 + (100 * century + yoc), doc - (365 * yoc + yoc / 4), ?_, hdoy.1, hdoy.2, ?_,
    ?_, rfl⟩
  · have hquarter : (era * 400 + (100 * century + yoc)) / 4 =
        era * 100 + 25 * century + yoc / 4 := by omega
    have hhundred : (era * 400 + (100 * century + yoc)) / 100 = era * 4 + century := by omega
    have hera : (era * 400 + (100 * century + yoc)) / 400 = era := by omega
    rw [marchFirst, hquarter, hhundred, hera]
    omega
  · have hquarter : (era * 400 + (100 * century + yoc) + 1) / 4 =
        era * 100 + 25 * century + (yoc + 1) / 4 := by omega
    rw [marchFirst, hquarter]
    -- The year after is in the next century, or in the next era, only at the ends.
    by_cases hlast : yoc = 99
    · obtain hlt | rfl : century ≤ 2 ∨ century = 3 := by omega
      · have hshort := hcentury hlt
        omega
      · omega
    · have hhundred : (era * 400 + (100 * century + yoc) + 1) / 100 = era * 4 + century := by omega
      have hera : (era * 400 + (100 * century + yoc) + 1) / 400 = era := by omega
      rw [hhundred, hera]
      omega
  · split <;> split <;> omega

/-- A later day has a later month, or the same month and a later day in it. -/
theorem civilFromDays_lt {z z' : ℤ} (h : z < z') :
    12 * (civilFromDays z).year + (civilFromDays z).month <
        12 * (civilFromDays z').year + (civilFromDays z').month ∨
      12 * (civilFromDays z).year + (civilFromDays z).month =
        12 * (civilFromDays z').year + (civilFromDays z').month ∧
      (civilFromDays z).day < (civilFromDays z').day := by
  obtain ⟨y, doy, hz, hdoy, hle, hend, hmonth, hday⟩ := civilFromDays_march z
  obtain ⟨y', doy', hz', hdoy', hle', hend', hmonth', hday'⟩ := civilFromDays_march z'
  have hyear : y ≤ y' := by
    by_contra hlt
    have hmono : marchFirst (y' + 1) ≤ marchFirst y := marchFirst_mono (by omega)
    omega
  obtain hlt | rfl := hyear.lt_or_eq
  · left
    omega
  · -- In one year the days since its March decide.
    rw [hmonth, hmonth', hday, hday']
    have hdoys : doy < doy' := by omega
    clear hz hz' hend hend' hmonth hmonth' hday hday'
    omega

/-! ### A date is recovered from its day number -/

/-- The last day of a month. -/
def lastDay (year month : ℤ) : ℤ :=
  if month = 2 then if year % 4 = 0 ∧ (year % 100 ≠ 0 ∨ year % 400 = 0) then 29 else 28
  else if month = 4 ∨ month = 6 ∨ month = 9 ∨ month = 11 then 30 else 31

/-- The lengths of the months from March on. -/
theorem monthIndex_eq {mp day : ℤ} (hmp : 0 ≤ mp ∧ mp ≤ 11)
    (hday : 1 ≤ day ∧ day ≤ (if mp = 11 then 29 else if mp = 1 ∨ mp = 3 ∨ mp = 6 ∨ mp = 8 then 30
      else 31)) : (5 * ((153 * mp + 2) / 5 + day - 1) + 2) / 153 = mp := by
  split at hday
  · omega
  · split at hday
    · omega
    · rename_i hlast hshort
      have hlong : mp = 0 ∨ mp = 2 ∨ mp = 4 ∨ mp = 5 ∨ mp = 7 ∨ mp = 9 ∨ mp = 10 := by omega
      rcases hlong with rfl | rfl | rfl | rfl | rfl | rfl | rfl <;> omega

/-- A date by the March its year is counted from, the month since and the day in it. -/
theorem daysFromCivil_march {c : Civil} (hmonth : 1 ≤ c.month ∧ c.month ≤ 12)
    (hday : 1 ≤ c.day ∧ c.day ≤ lastDay c.year c.month) :
    ∃ y mp, daysFromCivil c = marchFirst y + ((153 * mp + 2) / 5 + c.day - 1) ∧
      0 ≤ mp ∧ mp ≤ 11 ∧ 12 * c.year + c.month = 12 * y + mp + 3 ∧
      (5 * ((153 * mp + 2) / 5 + c.day - 1) + 2) / 153 = mp ∧
      daysFromCivil c < marchFirst (y + 1) := by
  obtain ⟨year, month, day⟩ := c
  have hyear (y : ℤ) (doy : ℤ) : y / 400 * 146097 +
      ((y - y / 400 * 400) * 365 + (y - y / 400 * 400) / 4 - (y - y / 400 * 400) / 100 + doy) -
        719468 = marchFirst y + doy := by
    unfold marchFirst
    omega
  simp only [lastDay] at hmonth hday ⊢
  by_cases hlow : month ≤ 2
  · have hgt : ¬ month > 2 := by omega
    have hdays : daysFromCivil ⟨year, month, day⟩ =
        marchFirst (year - 1) + ((153 * (month + 9) + 2) / 5 + day - 1) := by
      rw [← hyear]
      simp only [daysFromCivil, hlow, hgt, if_true, if_false]
    refine ⟨year - 1, month + 9, hdays, by omega, by omega, by omega, ?_, ?_⟩
    · refine monthIndex_eq (by omega) ⟨hday.1, ?_⟩
      split_ifs at hday ⊢ <;> omega
    · rw [hdays]
      unfold marchFirst
      split_ifs at hday <;> omega
  · have hgt : month > 2 := by omega
    have hdays : daysFromCivil ⟨year, month, day⟩ =
        marchFirst year + ((153 * (month - 3) + 2) / 5 + day - 1) := by
      rw [← hyear]
      simp only [daysFromCivil, hlow, hgt, if_true, if_false]
    refine ⟨year, month - 3, hdays, by omega, by omega, by omega, ?_, ?_⟩
    · refine monthIndex_eq (by omega) ⟨hday.1, ?_⟩
      split_ifs at hday ⊢ <;> omega
    · rw [hdays]
      unfold marchFirst
      split_ifs at hday <;> omega

/-- Valid dates are recovered from their day numbers. -/
theorem civilFromDays_daysFromCivil {c : Civil} (hmonth : 1 ≤ c.month ∧ c.month ≤ 12)
    (hday : 1 ≤ c.day ∧ c.day ≤ lastDay c.year c.month) :
    civilFromDays (daysFromCivil c) = c := by
  obtain ⟨y, mp, hdays, hmp, hmp', hmonths, hindex, hend⟩ := daysFromCivil_march hmonth hday
  obtain ⟨y', doy, hdays', hdoy, hdoy', hend', hmonths', hday'⟩ :=
    civilFromDays_march (daysFromCivil c)
  have hbounds := civilFromDays_month (daysFromCivil c)
  have hfirst : 0 ≤ (153 * mp + 2) / 5 + c.day - 1 := by omega
  obtain rfl : y' = y := by
    rcases lt_trichotomy y' y with hlt | heq | hlt
    · have hmono : marchFirst (y' + 1) ≤ marchFirst y := marchFirst_mono (by omega)
      omega
    · exact heq
    · have hmono : marchFirst (y + 1) ≤ marchFirst y' := marchFirst_mono (by omega)
      omega
  obtain rfl : doy = (153 * mp + 2) / 5 + c.day - 1 := by omega
  rw [hindex] at hmonths' hday'
  refine Civil.ext ?_ ?_ ?_ <;> omega

end PureplayIngest.Lib
