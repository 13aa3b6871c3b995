import Mathlib.Order.Monotone.Basic
import PipeQuery.Time.Calendar

/-!
The calendar counts days without a gap. Years and months follow each other, every day belongs to one
month of one year, and the date of a number has this number.
-/
namespace PipeQuery

structure Date.IsValid (d : Date) : Prop where
  month_pos : 1 ≤ d.month
  month_le : d.month ≤ 12
  day_pos : 1 ≤ d.day
  day_le : d.day ≤ Calendar.monthLength d.year d.month

def Date.Before (a b : Date) : Prop :=
  a.year < b.year ∨ a.year = b.year ∧ (a.month < b.month ∨ a.month = b.month ∧ a.day < b.day)

def Date.next (d : Date) : Date :=
  if d.day < Calendar.monthLength d.year d.month then ⟨d.year, d.month, d.day + 1⟩
  else if d.month < 12 then ⟨d.year, d.month + 1, 1⟩
  else ⟨d.year + 1, 1, 1⟩

/-- The date is so many days after the first of January 1970, or before it if the number is
negative. -/
def Date.HasNumber (d : Date) (n : Int) : Prop :=
  Date.next^[n.toNat] ⟨1970, 1, 1⟩ = Date.next^[(-n).toNat] d

private theorem Date.before_trichotomy (a b : Date) : a.Before b ∨ a = b ∨ b.Before a := by
  obtain ⟨y, m, d⟩ := a
  obtain ⟨y', m', d'⟩ := b
  simp only [Before, Date.mk.injEq]
  omega

namespace Calendar

def yearLength (year : Int) : Nat := if isLeap year then 366 else 365

private theorem isLeap_iff (year : Int) :
    isLeap year = true ↔ year % 4 = 0 ∧ (year % 100 ≠ 0 ∨ year % 400 = 0) := by
  simp [isLeap]

/-- A year starts when the one before it ends. -/
theorem daysBeforeYear_succ (year : Int) :
    daysBeforeYear (year + 1) = daysBeforeYear year + yearLength year := by
  have hleap := isLeap_iff year
  rw [yearLength, daysBeforeYear, daysBeforeYear]
  split
  next h =>
    have := hleap.mp h
    omega
  next h =>
    have := mt hleap.mpr h
    omega

private theorem daysBeforeMonth_succ (year : Int) {month : Nat} (h : 1 ≤ month) :
    daysBeforeMonth year (month + 1) = daysBeforeMonth year month + monthLength year month := by
  cases month with
  | zero => omega
  | succ m => rfl

/-- The months make up the year. -/
theorem daysBeforeMonth_thirteen (year : Int) : daysBeforeMonth year 13 = yearLength year := by
  simp only [daysBeforeMonth, monthLength, yearLength]
  split <;> rfl

private theorem daysBeforeMonth_mono (year : Int) : Monotone (daysBeforeMonth year) := by
  apply monotone_nat_of_le_succ
  intro month
  cases month with
  | zero => exact Nat.le_refl 0
  | succ m =>
    rw [daysBeforeMonth_succ year (Nat.succ_pos m)]
    exact Nat.le_add_right _ _

private theorem daysBeforeYear_mono {a b : Int} (h : a ≤ b) :
    daysBeforeYear a ≤ daysBeforeYear b := by
  obtain ⟨k, rfl⟩ := Int.le.dest h
  clear h
  induction k with
  | zero => exact Int.le_of_eq (congrArg daysBeforeYear (Int.add_zero a).symm)
  | succ k ih =>
    rw [Int.natCast_succ, ← Int.add_assoc, daysBeforeYear_succ]
    omega

/-- The year of a day starts not after it and ends after it. -/
theorem yearOf_spec (n : Int) :
    daysBeforeYear (yearOf n) ≤ n ∧ n < daysBeforeYear (yearOf n + 1) := by
  unfold yearOf
  extract_lets guess
  -- The guess is off by less than a year: the rounded parts of a count are less than two days.
  have hlow : 146097 * (guess - 1) ≤ n * 400 := by omega
  have hhigh : n * 400 < 146097 * guess := by omega
  clear_value guess
  split
  next hearly =>
    simp only [daysBeforeYear] at hearly ⊢
    omega
  next hearly =>
    split
    next hlate =>
      simp only [daysBeforeYear] at hlate ⊢
      omega
    next hlate => omega

/-- The month of a day of the year starts not after it and ends after it. -/
theorem monthOf_spec (year : Int) {dayOfYear : Nat} {last : Nat} (hlast : 1 ≤ last)
    (h : dayOfYear < daysBeforeMonth year (last + 1)) :
    1 ≤ monthOf year dayOfYear last ∧ monthOf year dayOfYear last ≤ last ∧
      daysBeforeMonth year (monthOf year dayOfYear last) ≤ dayOfYear ∧
      dayOfYear < daysBeforeMonth year (monthOf year dayOfYear last + 1) := by
  induction last, hlast using Nat.le_induction with
  | base => exact ⟨Nat.le_refl 1, Nat.le_refl 1, Nat.zero_le _, h⟩
  | succ last hlast ih =>
    obtain ⟨m, rfl⟩ : ∃ m, last = m + 1 := ⟨last - 1, by omega⟩
    rw [monthOf]
    split
    next hle => exact ⟨by omega, Nat.le_refl _, hle, h⟩
    next hle =>
      obtain ⟨hpos, hbound, hspec⟩ := ih (Nat.lt_of_not_le hle)
      exact ⟨hpos, by omega, hspec⟩

/-- A date lies in its year and in its month. -/
theorem dayNumber_bounds {d : Date} (h : d.IsValid) :
    daysBeforeYear d.year - epoch ≤ dayNumber d ∧
      dayNumber d < daysBeforeYear d.year + daysBeforeMonth d.year (d.month + 1) - epoch ∧
      daysBeforeMonth d.year (d.month + 1) ≤ yearLength d.year := by
  have hmonth := daysBeforeMonth_succ d.year h.month_pos
  have hyear : daysBeforeMonth d.year (d.month + 1) ≤ daysBeforeMonth d.year 13 :=
    daysBeforeMonth_mono d.year (Nat.succ_le_succ h.month_le)
  rw [daysBeforeMonth_thirteen] at hyear
  have hpos := h.day_pos
  have hle := h.day_le
  refine ⟨?_, ?_, hyear⟩
  · rw [dayNumber]
    omega
  · rw [dayNumber]
    omega

/-- The numbers of dates are in the order of the calendar. -/
theorem dayNumber_lt_of_before {a b : Date} (ha : a.IsValid) (hb : b.IsValid) (h : a.Before b) :
    dayNumber a < dayNumber b := by
  obtain ⟨-, hmonth, hyear⟩ := dayNumber_bounds ha
  rcases h with hlt | ⟨hy, hlt | ⟨hm, hlt⟩⟩
  · have hnext : daysBeforeYear (a.year + 1) ≤ daysBeforeYear b.year := daysBeforeYear_mono hlt
    rw [daysBeforeYear_succ] at hnext
    have hstart := (dayNumber_bounds hb).1
    omega
  · have hnext : daysBeforeMonth b.year (a.month + 1) ≤ daysBeforeMonth b.year b.month :=
      daysBeforeMonth_mono b.year hlt
    have hpos := hb.day_pos
    rw [hy] at hmonth
    rw [dayNumber.eq_def b]
    omega
  · rw [dayNumber, dayNumber, hy, hm]
    omega

private theorem dayNumber_lt_iff {a b : Date} (ha : a.IsValid) (hb : b.IsValid) :
    dayNumber a < dayNumber b ↔ a.Before b := by
  constructor
  · intro h
    rcases Date.before_trichotomy a b with hab | rfl | hba
    · exact hab
    · exact absurd h (Int.lt_irrefl _)
    · exact absurd (dayNumber_lt_of_before hb ha hba) (Int.lt_asymm h)
  · exact dayNumber_lt_of_before ha hb

theorem dayNumber_le_iff {a b : Date} (ha : a.IsValid) (hb : b.IsValid) :
    dayNumber a ≤ dayNumber b ↔ ¬ b.Before a := by
  rw [← Int.not_lt, dayNumber_lt_iff hb ha]

/-- The date of a number is one of the calendar, and it has this number. -/
theorem dateOf_spec (n : Int) : (dateOf n).IsValid ∧ dayNumber (dateOf n) = n := by
  obtain ⟨hstart, hend⟩ := yearOf_spec (n + epoch)
  rw [daysBeforeYear_succ] at hend
  rw [dateOf]
  generalize yearOf (n + epoch) = year at hstart hend
  obtain ⟨dayOfYear, hday⟩ :=
    Int.eq_ofNat_of_zero_le (a := n + epoch - daysBeforeYear year) (by omega)
  rw [hday, Int.toNat_natCast]
  have hlast : dayOfYear < daysBeforeMonth year (12 + 1) := by
    rw [daysBeforeMonth_thirteen]
    omega
  obtain ⟨hpos, hle, hmonth, hnext⟩ := monthOf_spec year (by omega) hlast
  rw [daysBeforeMonth_succ year hpos] at hnext
  generalize monthOf year dayOfYear 12 = month at hpos hle hmonth hnext
  constructor
  · exact ⟨hpos, hle, by simp, by simp only; omega⟩
  · simp only [dayNumber]
    omega

theorem dateOf_isValid (n : Int) : (dateOf n).IsValid := (dateOf_spec n).1

theorem dayNumber_dateOf (n : Int) : dayNumber (dateOf n) = n := (dateOf_spec n).2

/-- Dates are in the order of their numbers, so no two of them share one. -/
theorem dateOf_dayNumber {d : Date} (h : d.IsValid) : dateOf (dayNumber d) = d := by
  have hvalid := dateOf_isValid (dayNumber d)
  have hnumber := dayNumber_dateOf (dayNumber d)
  rcases Date.before_trichotomy (dateOf (dayNumber d)) d with hlt | heq | hlt
  · have := dayNumber_lt_of_before hvalid h hlt
    omega
  · exact heq
  · have := dayNumber_lt_of_before h hvalid hlt
    omega

private theorem monthLength_pos (year : Int) (month : Nat) : 1 ≤ monthLength year month := by
  unfold monthLength
  split
  · split <;> decide
  all_goals decide

theorem monthLength_le (year : Int) (month : Nat) : monthLength year month ≤ 31 := by
  unfold monthLength
  split
  · split <;> decide
  all_goals decide

/-- The first day of the month of a date. -/
theorem isValid_firstOfMonth {d : Date} (h : d.IsValid) :
    Date.IsValid ⟨d.year, d.month, 1⟩ :=
  ⟨h.month_pos, h.month_le, Nat.le_refl 1, monthLength_pos _ _⟩

/-- The first day of a year. -/
theorem isValid_firstOfYear (year : Int) : Date.IsValid ⟨year, 1, 1⟩ :=
  ⟨Nat.le_refl 1, Nat.le_add_left 1 11, Nat.le_refl 1, monthLength_pos _ _⟩

private theorem isValid_next {d : Date} (h : d.IsValid) : d.next.IsValid := by
  rw [Date.next]
  split
  next hday => exact ⟨h.month_pos, h.month_le, Nat.le_add_left 1 _, hday⟩
  next =>
    split
    next hmonth => exact ⟨Nat.le_add_left 1 _, hmonth, Nat.le_refl 1, monthLength_pos _ _⟩
    next => exact isValid_firstOfYear _

private theorem dayNumber_next {d : Date} (h : d.IsValid) : dayNumber d.next = dayNumber d + 1 := by
  have hmonth := daysBeforeMonth_succ d.year h.month_pos
  have hle := h.day_le
  rw [Date.next]
  split
  next =>
    simp only [dayNumber]
    omega
  next hday =>
    split
    next =>
      simp only [dayNumber, hmonth]
      omega
    next hlast =>
      have hdecember : d.month = 12 := Nat.le_antisymm h.month_le (Nat.not_lt.mp hlast)
      have hfirst : daysBeforeMonth (d.year + 1) 1 = 0 := rfl
      rw [hdecember] at hmonth hle hday
      rw [daysBeforeMonth_thirteen] at hmonth
      simp only [dayNumber, daysBeforeYear_succ, hdecember, hfirst]
      omega

private theorem iterate_next {d : Date} (h : d.IsValid) (k : Nat) :
    (Date.next^[k] d).IsValid ∧ dayNumber (Date.next^[k] d) = dayNumber d + k := by
  induction k generalizing d with
  | zero => exact ⟨h, (Int.add_zero _).symm⟩
  | succ k ih =>
    obtain ⟨hvalid, hnumber⟩ := ih (isValid_next h)
    rw [dayNumber_next h] at hnumber
    refine ⟨hvalid, ?_⟩
    rw [Function.iterate_succ_apply, hnumber]
    omega

/-- Numbers are counted day by day. -/
theorem hasNumber_iff {d : Date} (h : d.IsValid) {n : Int} : d.HasNumber n ↔ dayNumber d = n := by
  have hfirst : dayNumber ⟨1970, 1, 1⟩ = 0 := by decide
  obtain ⟨hvalid, hnumber⟩ := iterate_next (isValid_firstOfYear 1970) n.toNat
  obtain ⟨hvalid', hnumber'⟩ := iterate_next h (-n).toNat
  rw [hfirst] at hnumber
  constructor
  · intro heq
    rw [Date.HasNumber] at heq
    rw [heq] at hnumber
    omega
  · intro heq
    have hsame : dayNumber (Date.next^[n.toNat] ⟨1970, 1, 1⟩) =
        dayNumber (Date.next^[(-n).toNat] d) := by omega
    rw [Date.HasNumber, ← dateOf_dayNumber hvalid, hsame, dateOf_dayNumber hvalid']

end Calendar

end PipeQuery
