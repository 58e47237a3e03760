/-
# The proleptic Gregorian calendar and the weeks of ISO 8601

Days and years are integers; day `0` is Thursday 1 January 1970.  An ISO week goes
from Monday to Sunday and belongs to the year of its Thursday, whose weeks are
counted from the one with the first Thursday.

* `yearOf_eq_iff` : the year of a day;
* `weekOne_succ` : the number of weeks of a year, 52 or 53;
* `iso_eq_iff` : the days with a given ISO year and week are the seven from its
  Monday on.
-/
import Mathlib.Algebra.Order.Ring.Int
import Mathlib.Tactic.Common

namespace Calendar

/-! ## Years -/

/-- Every fourth year, but of the centuries only every fourth. -/
def Leap (y : ℤ) : Prop := y % 4 = 0 ∧ (y % 100 ≠ 0 ∨ y % 400 = 0)

instance (y : ℤ) : Decidable (Leap y) := inferInstanceAs (Decidable (_ ∧ _))

def yearLength (y : ℤ) : ℤ := if Leap y then 366 else 365

/-- 1 January: the leap days before the year are counted from year 1 on, and 477 of
them come before 1970. -/
def newYear (y : ℤ) : ℤ := 365 * (y - 1970) + ((y - 1) / 4 - (y - 1) / 100 + (y - 1) / 400 - 477)

/-- A year is as long as it is. -/
theorem newYear_succ (y : ℤ) : newYear (y + 1) = newYear y + yearLength y := by
  unfold newYear yearLength Leap
  split_ifs <;> omega

/-- 400 years have 146097 days, and a year starts within two days of what the average
length of a year says. -/
theorem newYear_bounds (y : ℤ) :
    146097 * (y - 1970) - 800 < 400 * newYear y ∧ 400 * newYear y < 146097 * (y - 1970) + 800 := by
  unfold newYear
  omega

/-- Years begin in order. -/
theorem newYear_mono {y y' : ℤ} (h : y ≤ y') : newYear y ≤ newYear y' := by
  rcases eq_or_lt_of_le h with rfl | hlt
  · exact le_rfl
  · have hy := newYear_bounds y
    have hy' := newYear_bounds y'
    omega

/-- The year of a day, which its average length gives up to one. -/
def yearOf (d : ℤ) : ℤ :=
  let y := 400 * d / 146097 + 1970
  if d < newYear y then y - 1 else if newYear (y + 1) ≤ d then y + 1 else y

/-- A day is not before its year. -/
theorem newYear_yearOf_le (d : ℤ) : newYear (yearOf d) ≤ d := by
  have hprev := newYear_bounds (400 * d / 146097 + 1970 - 1)
  unfold yearOf
  dsimp only
  split_ifs <;> omega

/-- A day is before the next year. -/
theorem lt_newYear_yearOf_succ (d : ℤ) : d < newYear (yearOf d + 1) := by
  have hnext := newYear_bounds (400 * d / 146097 + 1970 + 1 + 1)
  unfold yearOf
  dsimp only
  split_ifs with h₁ h₂
  · rwa [sub_add_cancel]
  · omega
  · exact not_le.mp h₂

/-- The years cut the days into intervals. -/
theorem yearOf_eq_iff {d y : ℤ} : yearOf d = y ↔ newYear y ≤ d ∧ d < newYear (y + 1) := by
  constructor
  · rintro rfl
    exact ⟨newYear_yearOf_le d, lt_newYear_yearOf_succ d⟩
  · rintro ⟨hle, hlt⟩
    have hyear := newYear_yearOf_le d
    have hnext := lt_newYear_yearOf_succ d
    rcases lt_trichotomy (yearOf d) y with h | h | h
    · have hmono : newYear (yearOf d + 1) ≤ newYear y := newYear_mono h
      omega
    · exact h
    · have hmono : newYear (y + 1) ≤ newYear (yearOf d) := newYear_mono h
      omega

/-! ## Weeks -/

/-- From Sunday, which is `0`. -/
def weekday (d : ℤ) : ℤ := (d + 4) % 7

/-- The Monday of the week of a day. -/
def monday (d : ℤ) : ℤ := d - (weekday d + 6) % 7

/-- A Monday is the only one of the week from it on. -/
theorem monday_eq_iff {d m : ℤ} : monday d = m ↔ weekday m = 1 ∧ m ≤ d ∧ d < m + 7 := by
  unfold monday weekday
  omega

/-! ## ISO years and weeks -/

/-- The year of the Thursday. -/
def isoYear (d : ℤ) : ℤ := yearOf (monday d + 3)

/-- The number of the Thursday in its year. -/
def isoWeek (d : ℤ) : ℤ := (monday d + 3 - newYear (isoYear d)) / 7 + 1

/-- The Monday of the first week of a year, which is the week of 4 January. -/
def weekOne (y : ℤ) : ℤ := monday (newYear y + 3)

/-- The Monday of a week of a year. -/
def weekStart (y w : ℤ) : ℤ := weekOne y + 7 * (w - 1)

/-- A year has 53 weeks when it starts on a Thursday, or is a leap year and starts on
a Wednesday. -/
def weeksIn (y : ℤ) : ℤ :=
  if weekday (newYear y) = 4 ∨ Leap y ∧ weekday (newYear y) = 3 then 53 else 52

/-- The week exists in the year. -/
def ValidWeek (y w : ℤ) : Prop := 1 ≤ w ∧ w ≤ weeksIn y

instance (y w : ℤ) : Decidable (ValidWeek y w) := inferInstanceAs (Decidable (_ ∧ _))

/-- A year of weeks has 52 or 53 of them. -/
theorem weekOne_succ (y : ℤ) : weekOne (y + 1) = weekOne y + 7 * weeksIn y := by
  unfold weekOne weeksIn monday weekday
  rw [newYear_succ, yearLength]
  by_cases h : Leap y
  · simp only [h, if_true, true_and]
    split_ifs <;> omega
  · simp only [h, if_false, false_and, or_false]
    split_ifs <;> omega

/-- Every year has a week. -/
theorem one_le_weeksIn (y : ℤ) : 1 ≤ weeksIn y := by
  unfold weeksIn
  split_ifs <;> omega

/-- The Monday of a day is that of its ISO week. -/
theorem monday_eq_weekStart (d : ℤ) : monday d = weekStart (isoYear d) (isoWeek d) := by
  have hle : newYear (isoYear d) ≤ monday d + 3 := newYear_yearOf_le _
  unfold weekStart weekOne isoWeek
  unfold monday weekday at hle ⊢
  omega

/-- The first Monday of a year is at most three days away from 1 January. -/
theorem weekOne_bounds (y : ℤ) : newYear y ≤ weekOne y + 3 ∧ weekOne y < newYear y + 4 := by
  unfold weekOne monday weekday
  omega

/-- Weeks begin on Monday. -/
theorem weekday_weekStart (y w : ℤ) : weekday (weekStart y w) = 1 := by
  unfold weekStart weekOne monday weekday
  omega

/-- The ISO week of a day is a week. -/
theorem validWeek_iso (d : ℤ) : ValidWeek (isoYear d) (isoWeek d) := by
  have hle : newYear (isoYear d) ≤ monday d + 3 := newYear_yearOf_le _
  have hlt : monday d + 3 < newYear (isoYear d + 1) := lt_newYear_yearOf_succ _
  have hstart := monday_eq_weekStart d
  have hnext := weekOne_bounds (isoYear d + 1)
  have hweek : isoWeek d = (monday d + 3 - newYear (isoYear d)) / 7 + 1 := rfl
  rw [weekOne_succ] at hnext
  unfold weekStart at hstart
  constructor <;> omega

/-- The week of a Monday in a year is that of the year. -/
theorem isoYear_of_monday {d y w : ℤ} (h : ValidWeek y w) (hd : monday d = weekStart y w) :
    isoYear d = y := by
  have hthis := weekOne_bounds y
  have hnext := weekOne_bounds (y + 1)
  obtain ⟨h₁, h₂⟩ := h
  rw [weekOne_succ] at hnext
  unfold weekStart at hd
  exact yearOf_eq_iff.mpr (by constructor <;> omega)

/-- **The days of an ISO week** are the seven from its Monday on. -/
theorem iso_eq_iff {d y w : ℤ} (h : ValidWeek y w) :
    isoYear d = y ∧ isoWeek d = w ↔ weekStart y w ≤ d ∧ d < weekStart y w + 7 := by
  have hmonday : monday d = weekStart y w ↔ weekStart y w ≤ d ∧ d < weekStart y w + 7 :=
    monday_eq_iff.trans (and_iff_right (weekday_weekStart y w))
  rw [← hmonday]
  constructor
  · rintro ⟨rfl, rfl⟩
    exact monday_eq_weekStart d
  · intro hd
    have hyear := isoYear_of_monday h hd
    refine ⟨hyear, ?_⟩
    rw [monday_eq_weekStart, hyear] at hd
    unfold weekStart at hd
    omega

/-- The weeks that exist are those that have days. -/
theorem validWeek_iff_exists {y w : ℤ} : ValidWeek y w ↔ ∃ d, isoYear d = y ∧ isoWeek d = w := by
  constructor
  · exact fun h => ⟨weekStart y w, (iso_eq_iff h).mpr (by constructor <;> omega)⟩
  · rintro ⟨d, rfl, rfl⟩
    exact validWeek_iso d

/-- The week of a day is one that exists, and the only one the day is in. -/
theorem existsUnique_week (d : ℤ) :
    ∃! p : ℤ × ℤ, ValidWeek p.1 p.2 ∧ weekStart p.1 p.2 ≤ d ∧ d < weekStart p.1 p.2 + 7 := by
  refine ⟨(isoYear d, isoWeek d), ⟨validWeek_iso d, (iso_eq_iff (validWeek_iso d)).mp ⟨rfl, rfl⟩⟩, ?_⟩
  rintro ⟨y, w⟩ ⟨hvalid, hd⟩
  obtain ⟨rfl, rfl⟩ := (iso_eq_iff hvalid).mpr hd
  rfl

/-- The week after a week. -/
def nextWeek (y w : ℤ) : ℤ × ℤ := if w < weeksIn y then (y, w + 1) else (y + 1, 1)

/-- The week after a week is one. -/
theorem validWeek_nextWeek {y w : ℤ} (h : ValidWeek y w) :
    ValidWeek (nextWeek y w).1 (nextWeek y w).2 := by
  unfold nextWeek
  split_ifs with hlt
  · exact ⟨by have := h.1; omega, hlt⟩
  · exact ⟨le_rfl, one_le_weeksIn _⟩

/-- It begins seven days later. -/
theorem weekStart_nextWeek {y w : ℤ} (h : ValidWeek y w) :
    weekStart (nextWeek y w).1 (nextWeek y w).2 = weekStart y w + 7 := by
  unfold nextWeek
  split_ifs with hlt
  · show weekOne y + 7 * (w + 1 - 1) = weekOne y + 7 * (w - 1) + 7
    omega
  · have hlast : w = weeksIn y := le_antisymm h.2 (not_lt.mp hlt)
    show weekOne (y + 1) + 7 * (1 - 1) = weekOne y + 7 * (w - 1) + 7
    rw [weekOne_succ, hlast]
    omega

end Calendar
