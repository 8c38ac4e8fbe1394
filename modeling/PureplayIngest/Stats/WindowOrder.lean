import PureplayIngest.Stats.StatsService

/-!
When the window of a statistics request is rejected.

`since` has to be before `until`, and what is compared are the two strings
`toISOString` wrote. They are in the order of the instants as long as both
years have four digits. A year above 9999 is written with a plus sign, which
sorts before any digit, and a year below 0000 with a minus sign in front of
its magnitude, so that the earlier of two such years has the greater string.
-/

namespace PureplayIngest.Stats

open Shared Shared.Domain Lib Shots

/-- What the `Date` constructor makes of strings: a time value in its range or
nothing, and nothing of the empty string. -/
structure DateConstructor (parseDate : String → Option ℤ) : Prop where
  range {text : String} {t : ℤ} (parsed : parseDate text = some t) :
    -maxTimeValue ≤ t ∧ t ≤ maxTimeValue
  empty : parseDate "" = none

/-- Both years are above 9999 or neither is, and both are below 0000 only if
they are one year. -/
def Comparable (t u : ℤ) : Prop :=
  (9999 < yearOf t ↔ 9999 < yearOf u) ∧ (yearOf t < 0 → yearOf u < 0 → yearOf t = yearOf u)

instance (t u : ℤ) : Decidable (Comparable t u) :=
  inferInstanceAs (Decidable ((_ ↔ _) ∧ (_ → _ → _)))

theorem Comparable.symm {t u : ℤ} (h : Comparable t u) : Comparable u t :=
  ⟨h.1.symm, fun hu ht => (h.2 ht hu).symm⟩

/-! ### The order of the strings -/

section

variable {t u : ℤ} (ht : -maxTimeValue ≤ t ∧ t ≤ maxTimeValue)
  (hu : -maxTimeValue ≤ u ∧ u ≤ maxTimeValue)

include hu in
theorem isoString_lt_of_comparable (hc : Comparable t u) (h : t < u) :
    isoString t < isoString u := by
  have hmono := yearOf_mono h
  by_cases hplus : 9999 < yearOf t
  · exact isoString_lt_of_plus hplus (yearOf_bounds hu).2 h
  have hle : yearOf u ≤ 9999 := not_lt.mp (mt hc.1.mpr hplus)
  by_cases hminus : yearOf t < 0
  · by_cases hminus' : yearOf u < 0
    · exact isoString_lt_of_year (hc.2 hminus hminus') h
    · exact isoString_minus_lt hminus (by omega)
  · exact isoString_lt (by omega) (by omega) h

include ht in
/-- The other way round, where a sign decides or two magnitudes do. -/
theorem isoString_gt_of_not_comparable (hc : ¬ Comparable t u) (h : t < u) :
    isoString u < isoString t := by
  have hmono := yearOf_mono h
  by_cases hplus : 9999 < yearOf u ∧ yearOf t ≤ 9999
  · exact isoString_plus_lt hplus.1 hplus.2
  · have hiff : 9999 < yearOf t ↔ 9999 < yearOf u := by omega
    rw [Comparable, and_iff_right hiff] at hc
    push Not at hc
    obtain ⟨-, hminus, hne⟩ := hc
    exact isoString_lt_of_minus (yearOf_bounds ht).1 hminus (lt_of_le_of_ne hmono hne)

include ht hu in
/-- The strings are compared as the instants are just when the years allow it. -/
theorem isoString_le_iff :
    (isoString u ≤ isoString t ↔ u ≤ t) ↔ Comparable t u := by
  rcases lt_trichotomy t u with hlt | rfl | hgt
  · rw [iff_false_right (not_le.mpr hlt), not_le]
    constructor
    · intro h
      by_contra hc
      exact lt_asymm h (isoString_gt_of_not_comparable ht hc hlt)
    · exact fun hc => isoString_lt_of_comparable hu hc hlt
  · exact iff_of_true (iff_of_true le_rfl le_rfl) ⟨Iff.rfl, fun _ _ => rfl⟩
  · rw [iff_true_right hgt.le]
    constructor
    · intro h
      by_contra hc
      exact absurd (isoString_gt_of_not_comparable hu (mt Comparable.symm hc) hgt) (not_lt.mpr h)
    · exact fun hc => (isoString_lt_of_comparable ht hc.symm hgt).le

end

/-! ### The request -/

/-- A request ends with `InvalidDateError`. -/
def InvalidDate {α : Type} (result : Except ShotsError α) : Prop :=
  ∃ field value, result = .error (.domain (invalidDateError field value))

/-- The message tells the error from the one for an unknown club. -/
theorem unknownClubCodeError_ne (club field value : String) :
    unknownClubCodeError club ≠ invalidDateError field value := by
  intro h
  have hhead := congrArg (fun e => e.message.toList.head?) h
  simp only [unknownClubCodeError, invalidDateError, String.toList_append] at hhead
  exact absurd hhead (by simp)

theorem checkWindow_eq (since until_ : ℤ) :
    (checkWindow since until_ = .ok () ∧ ¬ isoString until_ ≤ isoString since) ∨
      (InvalidDate (checkWindow since until_) ∧ isoString until_ ≤ isoString since) := by
  rw [checkWindow]
  split
  · rename_i h
    exact .inr ⟨⟨_, _, rfl⟩, h⟩
  · rename_i h
    exact .inl ⟨rfl, h⟩

theorem not_invalidDate_checkClub (club : Option String) {α : Type} {next : Except ShotsError α}
    (h : ¬ InvalidDate next) : ¬ InvalidDate (checkClub club >>= fun _ => next) := by
  rw [checkClub]
  split
  · split
    · exact h
    · rintro ⟨field, value, heq⟩
      exact unknownClubCodeError_ne _ field value (ShotsError.domain.inj (Except.error.inj heq))
  · exact h

variable {κ : Type} {ν : Type} {numbers : Numbers ν} {pg : Postgres κ} {newest : Newest}
  {parseDate : String → Option ℤ} {now since until_ : ℤ} {shots : List StoredShot}

theorem parseWindowDate_eq_ok (hdate : DateConstructor parseDate) {text : String} {t : ℤ}
    (h : parseDate text = some t) (fieldName : String) :
    given (some text) = some text ∧ parseWindowDate parseDate text fieldName = .ok t := by
  have hrange := hdate.range h
  constructor
  · apply given_some
    rintro rfl
    rw [hdate.empty] at h
    exact absurd h (by simp)
  · rw [parseWindowDate, Shots.parseWindowDate, h, Option.filter_some,
      if_pos (decide_eq_true hrange)]
    exact isoOf_eq_ok.mpr ⟨hrange, rfl⟩

/-- Of two strings that are dates it is the order of the ISO strings that counts. -/
theorem executeStatsQuery_invalidDate_iff (hdate : DateConstructor parseDate)
    (hnow : -maxTimeValue ≤ now ∧ now ≤ maxTimeValue) {sinceText untilText : String}
    (hsince : parseDate sinceText = some since) (huntil : parseDate untilText = some until_)
    (filter : ShotsFilter) (userLabel : String) (club : Option String) :
    InvalidDate (executeStatsQuery numbers pg newest parseDate now shots filter userLabel
        { since := some sinceText, until_ := some untilText, club }) ↔
      isoString until_ ≤ isoString since := by
  obtain ⟨hgiven, hstart⟩ := parseWindowDate_eq_ok hdate hsince "since"
  obtain ⟨hgiven', hend⟩ := parseWindowDate_eq_ok hdate huntil "until"
  have hclock : isoOf now = .ok now := isoOf_eq_ok.mpr ⟨hnow, rfl⟩
  have ok_bind {α β : Type} (a : α) (f : α → Except ShotsError β) : (.ok a >>= f) = f a := rfl
  simp only [executeStatsQuery, buildStatsSelect, windowStart, windowEnd, hgiven, hgiven', hstart,
    hend, hclock, bind_assoc, ok_bind]
  rcases checkWindow_eq since until_ with ⟨hwindow, hlt⟩ | ⟨⟨field, value, hwindow⟩, hle⟩
  · -- What comes after the window throws other errors only.
    rw [hwindow]
    refine iff_of_false (not_invalidDate_checkClub club ?_) hlt
    rintro ⟨field, value, h⟩
    simp only [pure_bind] at h
    split at h <;> cases h
  · rw [hwindow]
    exact iff_of_true ⟨field, value, rfl⟩ hle

/--
`getStats` rejects the windows that are not in order, and only those, exactly
when the years of the two instants are written comparably. Both can be any
strings the `Date` constructor reads.
-/
theorem getStats_rejects_iff (hdate : DateConstructor parseDate)
    (hnow : -maxTimeValue ≤ now ∧ now ≤ maxTimeValue) {sinceText untilText : String}
    (hsince : parseDate sinceText = some since) (huntil : parseDate untilText = some until_)
    (userId : String) (club : Option String) :
    (InvalidDate (getStats numbers pg newest parseDate now shots userId
        { since := some sinceText, until_ := some untilText, club }) ↔ ¬ since < until_) ↔
      Comparable since until_ := by
  rw [getStats, executeStatsQuery_invalidDate_iff hdate hnow hsince huntil, not_lt]
  exact isoString_le_iff (hdate.range hsince) (hdate.range huntil)

/-- Dates around the turns of the years 0000 and 10000. -/
def edgeDates : List (String × ℤ) :=
  [("9999-12-31T23:59:59Z", 253402300799000), ("+010000-01-01T00:00:00Z", 253402300800000),
    ("-000001-01-01T00:00:00Z", -62198755200000), ("-000002-01-01T00:00:00Z", -62230291200000)]

def edgeDate (text : String) : Option ℤ :=
  (edgeDates.find? fun date => date.1 = text).map (·.2)

theorem dateConstructor_edgeDate : DateConstructor edgeDate where
  range {text t} parsed := by
    obtain ⟨date, hfind, rfl⟩ := Option.map_eq_some_iff.mp parsed
    have hall : ∀ date ∈ edgeDates, -maxTimeValue ≤ date.2 ∧ date.2 ≤ maxTimeValue := by decide
    exact hall date (List.mem_of_find?_eq_some hfind)
  empty := by decide

/-- The last second before year 10000. -/
def lastSecond : StatsQuery :=
  { since := some "9999-12-31T23:59:59Z", until_ := some "+010000-01-01T00:00:00Z", club := none }

/-- From year -1 back to year -2. -/
def yearBack : StatsQuery :=
  { since := some "-000001-01-01T00:00:00Z", until_ := some "-000002-01-01T00:00:00Z"
    club := none }

theorem getStats_rejects_iff_lastSecond :
    (InvalidDate (getStats Numbers.ofFractions Postgres.ofStrings Newest.stable edgeDate 0 []
        "golfer-1" lastSecond) ↔ ¬ (253402300799000 : ℤ) < 253402300800000) ↔
      Comparable 253402300799000 253402300800000 :=
  getStats_rejects_iff dateConstructor_edgeDate (by decide) (by decide) (by decide) "golfer-1" none

/-- The one is rejected although it is in order, the other is not although it is not. -/
theorem windows_misjudged :
    (InvalidDate (getStats Numbers.ofFractions Postgres.ofStrings Newest.stable edgeDate 0 []
        "golfer-1" lastSecond) ∧ (253402300799000 : ℤ) < 253402300800000) ∧
      ¬ InvalidDate (getStats Numbers.ofFractions Postgres.ofStrings Newest.stable edgeDate 0 []
        "golfer-1" yearBack) ∧ ¬ (-62198755200000 : ℤ) < -62230291200000 := by
  have hdate := dateConstructor_edgeDate
  refine ⟨⟨?_, by decide⟩, ?_, by decide⟩
  · refine (executeStatsQuery_invalidDate_iff hdate (by decide)
      (show edgeDate _ = some 253402300799000 by decide)
      (show edgeDate _ = some 253402300800000 by decide) _ _ _).mpr ?_
    exact (isoString_plus_lt (by decide) (by decide)).le
  · refine mt (executeStatsQuery_invalidDate_iff hdate (by decide)
      (show edgeDate _ = some (-62198755200000) by decide)
      (show edgeDate _ = some (-62230291200000) by decide) _ _ _).mp (not_le.mpr ?_)
    exact isoString_lt_of_minus (by decide) (by decide) (by decide)

end PureplayIngest.Stats
