/-
# The weeks of the weekly reports

`isoWeekRange`, `CurrentISOWeek` and `previousMondayUTC`, with instants as integer
numbers of nanoseconds since 1 January 1970 in UTC and the calendar of `Calendar`.
The span of a week is that of the calendar, and `week_reports` says what follows for
the reports.
-/
import ZtMapper.Lib.Calendar
import Mathlib.Order.Bounds.Basic

open Calendar hiding weekday isoWeek

namespace Reports

/-- Nanoseconds since 1 January 1970, in UTC. -/
abbrev Instant := ℤ

/-- `24 * time.Hour` -/
def day : ℤ := 24 * 3600 * 1000000000

theorem day_pos : 0 < day := by decide

namespace Instant

/-- `time.Date(year, time.January, dayOfMonth, 0, 0, 0, 0, time.UTC)` -/
def january (year dayOfMonth : ℤ) : Instant := (newYear year + (dayOfMonth - 1)) * day

/-- `Truncate(24 * time.Hour)`, which rounds down to a multiple of a day since a
midnight. -/
def truncateDay (t : Instant) : Instant := t / day * day

/-- `Weekday`, which is `0` for Sunday. -/
def weekday (t : Instant) : ℤ := Calendar.weekday (t / day)

/-- `AddDate(0, 0, days)` -/
def addDays (t : Instant) (days : ℤ) : Instant := t + days * day

/-- `ISOWeek` -/
def isoWeek (t : Instant) : ℤ × ℤ := (Calendar.isoYear (t / day), Calendar.isoWeek (t / day))

end Instant

open Instant

def previousMondayUTC (t : Instant) : Instant :=
  let t := truncateDay t
  let weekday := if weekday t = 0 then 7 else weekday t
  addDays t (-(weekday - 1))

/-- The week that ended last. -/
def currentISOWeek (now : Instant) : ℤ × ℤ :=
  let monday := previousMondayUTC now
  let prevWeekAnchor := monday + -day
  isoWeek prevWeekAnchor

/-- The first instant of a week, and the first after it. -/
def isoWeekRange (year week : ℤ) : Instant × Instant :=
  let jan4 := january year 4
  let weekday := if weekday jan4 = 0 then 7 else weekday jan4
  let weekOneMonday := addDays jan4 (-(weekday - 1))
  let start := addDays weekOneMonday ((week - 1) * 7)
  (start, addDays start 7)

/-! ## In the terms of the calendar -/

theorem ediv_day (d : ℤ) : d * day / day = d := Int.mul_ediv_cancel d day_pos.ne'

/-- Both functions walk from a midnight to the Monday of its week. -/
theorem walk_to_monday (d : ℤ) :
    addDays (d * day) (-((if weekday (d * day) = 0 then 7 else weekday (d * day)) - 1)) =
      monday d * day := by
  have hwalk : d + -((if Calendar.weekday d = 0 then 7 else Calendar.weekday d) - 1) = monday d := by
    unfold monday Calendar.weekday
    split_ifs <;> omega
  rw [weekday, ediv_day, addDays, ← add_mul, hwalk]

theorem previousMondayUTC_eq (t : Instant) : previousMondayUTC t = monday (t / day) * day :=
  walk_to_monday (t / day)

theorem isoWeekRange_eq (y w : ℤ) :
    isoWeekRange y w = (weekStart y w * day, (weekStart y w + 7) * day) := by
  have hmonday : _ = monday (newYear y + (4 - 1)) * day := walk_to_monday (newYear y + (4 - 1))
  have hstart : (isoWeekRange y w).1 = weekStart y w * day := by
    show addDays (addDays (january y 4) _) ((w - 1) * 7) = _
    rw [january, hmonday, addDays, ← add_mul, weekStart, mul_comm 7]
    rfl
  rw [← Prod.mk.eta (p := isoWeekRange y w), hstart]
  refine congrArg _ ?_
  show addDays (isoWeekRange y w).1 7 = _
  rw [hstart, addDays, ← add_mul]

/-- The instants of a week. -/
def span (y w : ℤ) : Set Instant := {t | (isoWeekRange y w).1 ≤ t ∧ t < (isoWeekRange y w).2}

theorem mem_span_iff {y w : ℤ} {t : Instant} :
    t ∈ span y w ↔ weekStart y w ≤ t / day ∧ t / day < weekStart y w + 7 := by
  rw [span, Set.mem_ofPred_eq, isoWeekRange_eq, Int.le_ediv_iff_mul_le day_pos,
    Int.ediv_lt_iff_lt_mul day_pos]

/-- A Monday at midnight. -/
def IsMonday (t : Instant) : Prop := t % day = 0 ∧ weekday t = 1

theorem isMonday_iff {t : Instant} : IsMonday t ↔ ∃ d : ℤ, t = d * day ∧ Calendar.weekday d = 1 := by
  constructor
  · rintro ⟨hmid, hweekday⟩
    exact ⟨t / day, (Int.ediv_mul_cancel (Int.dvd_of_emod_eq_zero hmid)).symm, hweekday⟩
  · rintro ⟨d, rfl, hweekday⟩
    exact ⟨Int.mul_emod_left d day, by rwa [weekday, ediv_day]⟩

/-! ## The reports -/

/-- The span of a week that exists is seven days from a Monday on, all of the week. -/
theorem span_of_validWeek {y w : ℤ} (h : ValidWeek y w) :
    IsMonday (isoWeekRange y w).1 ∧ (isoWeekRange y w).2 = (isoWeekRange y w).1 + 7 * day ∧
      ∀ t ∈ span y w, isoWeek t = (y, w) := by
  refine ⟨?_, ?_, fun t ht => ?_⟩
  · rw [isoWeekRange_eq]
    exact isMonday_iff.mpr ⟨_, rfl, weekday_weekStart y w⟩
  · rw [isoWeekRange_eq, add_mul]
  · obtain ⟨hyear, hweek⟩ := (iso_eq_iff h).mpr (mem_span_iff.mp ht)
    exact Prod.ext hyear hweek

/-- Consecutive weeks abut. -/
theorem span_nextWeek {y w : ℤ} (h : ValidWeek y w) :
    (isoWeekRange (nextWeek y w).1 (nextWeek y w).2).1 = (isoWeekRange y w).2 := by
  rw [isoWeekRange_eq, isoWeekRange_eq, weekStart_nextWeek h]

/-- An instant is in one week. -/
theorem existsUnique_span (t : Instant) : ∃! p : ℤ × ℤ, ValidWeek p.1 p.2 ∧ t ∈ span p.1 p.2 := by
  simp only [mem_span_iff]
  exact existsUnique_week (t / day)

/-- The week that ended last is the one before that of the latest Monday. -/
theorem isoWeekRange_currentISOWeek (now : Instant) :
    (isoWeekRange (currentISOWeek now).1 (currentISOWeek now).2).2 = previousMondayUTC now := by
  have hanchor : (previousMondayUTC now + -day) / day = monday (now / day) - 1 := by
    rw [previousMondayUTC_eq, ← sub_eq_add_neg, ← sub_one_mul, ediv_day]
  have hweek : weekStart (currentISOWeek now).1 (currentISOWeek now).2 =
      monday ((previousMondayUTC now + -day) / day) := (monday_eq_weekStart _).symm
  rw [isoWeekRange_eq, hweek, hanchor, previousMondayUTC_eq]
  refine congrArg (· * day) ?_
  unfold monday Calendar.weekday
  omega

theorem isGreatest_previousMondayUTC (now : Instant) :
    IsGreatest {t | IsMonday t ∧ t ≤ now} (previousMondayUTC now) := by
  obtain ⟨hweekday, hle, hlt⟩ := monday_eq_iff.mp (rfl : monday (now / day) = _)
  rw [previousMondayUTC_eq]
  refine ⟨⟨isMonday_iff.mpr ⟨_, rfl, hweekday⟩, (Int.le_ediv_iff_mul_le day_pos).mp hle⟩, ?_⟩
  rintro t ⟨hmonday, hnow⟩
  obtain ⟨d, rfl, hd⟩ := isMonday_iff.mp hmonday
  have hdnow : d ≤ now / day := (Int.le_ediv_iff_mul_le day_pos).mpr hnow
  have hdle : d ≤ monday (now / day) := by
    unfold Calendar.weekday at hd hweekday
    omega
  exact mul_le_mul_of_nonneg_right hdle day_pos.le

/-- The weeks that exist are those of some instant. -/
theorem validWeek_iff {y w : ℤ} : ValidWeek y w ↔ ∃ t, isoWeek t = (y, w) := by
  rw [validWeek_iff_exists]
  constructor
  · rintro ⟨d, rfl, rfl⟩
    exact ⟨d * day, by rw [isoWeek, ediv_day]⟩
  · rintro ⟨t, ht⟩
    exact ⟨t / day, congrArg Prod.fst ht, congrArg Prod.snd ht⟩

/-- **The weeks of the reports.**  The range of a week that exists is seven days from
Monday midnight on, all of this week; ranges of consecutive weeks abut, and every
instant is in the range of one week; the week that is reported by default ends at the
latest Monday midnight. -/
theorem week_reports :
    (∀ y w, ValidWeek y w ↔ ∃ t, isoWeek t = (y, w)) ∧
    (∀ y w, ValidWeek y w →
      IsMonday (isoWeekRange y w).1 ∧ (isoWeekRange y w).2 = (isoWeekRange y w).1 + 7 * day ∧
        (∀ t ∈ span y w, isoWeek t = (y, w)) ∧
        ValidWeek (nextWeek y w).1 (nextWeek y w).2 ∧
        (isoWeekRange (nextWeek y w).1 (nextWeek y w).2).1 = (isoWeekRange y w).2) ∧
    (∀ t, ∃! p : ℤ × ℤ, ValidWeek p.1 p.2 ∧ t ∈ span p.1 p.2) ∧
    ∀ now, IsGreatest {t | IsMonday t ∧ t ≤ now}
      (isoWeekRange (currentISOWeek now).1 (currentISOWeek now).2).2 := by
  refine ⟨fun y w => validWeek_iff, fun y w h => ?_, existsUnique_span, fun now => ?_⟩
  · obtain ⟨hmonday, hlength, hweek⟩ := span_of_validWeek h
    exact ⟨hmonday, hlength, hweek, validWeek_nextWeek h, span_nextWeek h⟩
  · rw [isoWeekRange_currentISOWeek]
    exact isGreatest_previousMondayUTC now

/-- Week 20 of 2026 starts on 11 May, and is reported on 19 May. -/
example : isoWeekRange 2026 20 = (20584 * day, 20591 * day) ∧
    currentISOWeek (20592 * day + 6 * 3600 * 1000000000) = (2026, 20) := by decide

end Reports
