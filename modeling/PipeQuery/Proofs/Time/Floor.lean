import Mathlib.Order.Bounds.Basic
import PipeQuery.Proofs.Time.Calendar
import PipeQuery.Time.Point

/-!
The start of the period around an instant is the last instant not after it at which such a period
starts. So it is its own start, and later instants have later starts or the same.
-/
namespace PipeQuery

instance : LE Instant where
  le a b := a.seconds < b.seconds ∨ a.seconds = b.seconds ∧ a.nanos ≤ b.nanos

namespace Instant

private theorem le_iff {a b : Instant} :
    a ≤ b ↔ a.seconds < b.seconds ∨ a.seconds = b.seconds ∧ a.nanos ≤ b.nanos :=
  Iff.rfl

instance : PartialOrder Instant where
  le_refl t := .inr ⟨rfl, Nat.le_refl _⟩
  le_trans a b c hab hbc := by
    rw [le_iff] at hab hbc ⊢
    omega
  le_antisymm a b hab hba := by
    obtain ⟨s, n⟩ := a
    obtain ⟨s', n'⟩ := b
    simp only [le_iff, mk.injEq] at hab hba ⊢
    omega

def IsMidnight (t : Instant) : Prop := t.nanos = 0 ∧ t.seconds % secondsPerDay = 0

instance (t : Instant) : Decidable t.IsMidnight := inferInstanceAs (Decidable (_ ∧ _))

@[simp]
theorem day_startOfDay (n : Int) : (startOfDay n).day = n := by
  simp only [startOfDay, day, secondsPerDay]
  omega

private theorem isMidnight_startOfDay (n : Int) : (startOfDay n).IsMidnight :=
  ⟨rfl, Int.mul_emod_left n secondsPerDay⟩

private theorem IsMidnight.eq_startOfDay {t : Instant} (h : t.IsMidnight) :
    t = startOfDay t.day := by
  obtain ⟨s, n⟩ := t
  simp only [IsMidnight, startOfDay, day, secondsPerDay, mk.injEq] at h ⊢
  omega

private theorem startOfDay_le_iff {n : Int} {t : Instant} : startOfDay n ≤ t ↔ n ≤ t.day := by
  simp only [le_iff, startOfDay, day, secondsPerDay]
  omega

end Instant

namespace DatePoint

def Boundary : DatePoint → Instant → Prop
  | .now, _ => True
  | .second, t => t.nanos = 0
  | .minute, t => t.nanos = 0 ∧ t.seconds % 60 = 0
  | .hour, t => t.nanos = 0 ∧ t.seconds % 3600 = 0
  | .day, t => t.IsMidnight
  | .week, t => t.IsMidnight ∧ Calendar.weekday t.day = 0
  | .month, t => t.IsMidnight ∧ (Calendar.dateOf t.day).day = 1
  | .year, t => t.IsMidnight ∧ (Calendar.dateOf t.day).month = 1 ∧ (Calendar.dateOf t.day).day = 1

instance : (p : DatePoint) → (t : Instant) → Decidable (p.Boundary t)
  | .now, _ => inferInstanceAs (Decidable True)
  | .second, _ => inferInstanceAs (Decidable (_ = _))
  | .minute, _ | .hour, _ => inferInstanceAs (Decidable (_ ∧ _))
  | .day, t => inferInstanceAs (Decidable t.IsMidnight)
  | .week, _ | .month, _ | .year, _ => inferInstanceAs (Decidable (_ ∧ _))

/-- The start of a day is the last instant not after `t` that starts a period, if periods start at
midnight, one starts on that day, and none later up to the day of `t`. -/
theorem isGreatest_startOfDay {p : DatePoint} {t : Instant} {n : Int}
    (hmidnight : ∀ b, p.Boundary b → b.IsMidnight) (hstart : p.Boundary (.startOfDay n))
    (hle : n ≤ t.day) (hlast : ∀ b, p.Boundary b → b.day ≤ t.day → b.day ≤ n) :
    IsGreatest {b | p.Boundary b ∧ b ≤ t} (.startOfDay n) := by
  refine ⟨⟨hstart, Instant.startOfDay_le_iff.mpr hle⟩, ?_⟩
  rintro b ⟨hb, hbt⟩
  have hday := (hmidnight b hb).eq_startOfDay
  rw [hday, Instant.startOfDay_le_iff] at hbt ⊢
  rw [Instant.day_startOfDay]
  exact hlast b hb hbt

/-- Periods of a whole number of seconds that are counted from the start of 1970. -/
theorem isGreatest_whole {p : DatePoint} (length : Int) (hlength : 0 < length)
    (hp : ∀ b, p.Boundary b ↔ b.nanos = 0 ∧ b.seconds % length = 0) (t : Instant) :
    IsGreatest {b | p.Boundary b ∧ b ≤ t} ⟨t.seconds - t.seconds % length, 0⟩ := by
  have hsplit := Int.mul_ediv_add_emod t.seconds length
  have hnonneg := Int.emod_nonneg t.seconds (Int.ne_of_gt hlength)
  have hstart : t.seconds - t.seconds % length = length * (t.seconds / length) := by omega
  refine ⟨⟨(hp _).mpr ⟨rfl, ?_⟩, ?_⟩, ?_⟩
  · rw [hstart]
    exact Int.mul_emod_right _ _
  · rw [Instant.le_iff]
    simp only
    omega
  · rintro b ⟨hb, hbt⟩
    obtain ⟨hnanos, hwhole⟩ := (hp b).mp hb
    have hle : b.seconds ≤ t.seconds := by
      rw [Instant.le_iff] at hbt
      omega
    have hstarts : b.seconds ≤ length * (t.seconds / length) := by
      obtain ⟨q, hq⟩ := Int.dvd_of_emod_eq_zero hwhole
      rw [hq] at hle ⊢
      refine Int.mul_le_mul_of_nonneg_left ?_ (Int.le_of_lt hlength)
      exact (Int.le_ediv_iff_mul_le hlength).mpr (by rwa [Int.mul_comm])
    rw [Instant.le_iff, hnanos, hstart]
    simp only
    omega

private theorem isGreatest_week (t : Instant) :
    IsGreatest {b | DatePoint.week.Boundary b ∧ b ≤ t}
      (.startOfDay (t.day - Calendar.weekday t.day)) := by
  refine isGreatest_startOfDay (fun b hb => hb.1) ⟨Instant.isMidnight_startOfDay _, ?_⟩ ?_ ?_
  · rw [Instant.day_startOfDay]
    simp only [Calendar.weekday]
    omega
  · simp only [Calendar.weekday]
    omega
  · rintro b ⟨-, hmonday⟩ hle
    simp only [Calendar.weekday] at hmonday ⊢
    omega

section
open Calendar

/-- Months and years start on dates of some form. The start of the one around an instant is the last
such date that is not after the date of the instant. -/
theorem isGreatest_date {p : DatePoint} {t : Instant} (IsFirst : Date → Prop) {first : Date}
    (hp : ∀ b, p.Boundary b ↔ b.IsMidnight ∧ IsFirst (dateOf b.day)) (hvalid : first.IsValid)
    (hfirst : IsFirst first) (hle : ¬ (dateOf t.day).Before first)
    (hlast : ∀ d, IsFirst d → first.Before d → (dateOf t.day).Before d) :
    IsGreatest {b | p.Boundary b ∧ b ≤ t} (.startOfDay (dayNumber first)) := by
  have hdate := dateOf_isValid t.day
  have hday := dayNumber_dateOf t.day
  refine isGreatest_startOfDay (fun b hb => ((hp b).mp hb).1) ?_ ?_ ?_
  · refine (hp _).mpr ⟨Instant.isMidnight_startOfDay _, ?_⟩
    rwa [Instant.day_startOfDay, dateOf_dayNumber hvalid]
  · rw [← hday]
    exact (dayNumber_le_iff hvalid hdate).mpr hle
  · intro b hb hbt
    have hfirstOfB := ((hp b).mp hb).2
    have hdateOfB := dateOf_isValid b.day
    rw [← dayNumber_dateOf b.day, dayNumber_le_iff hdateOfB hvalid]
    rw [← dayNumber_dateOf b.day, ← hday, dayNumber_le_iff hdateOfB hdate] at hbt
    exact fun hbefore => hbt (hlast _ hfirstOfB hbefore)

private theorem isGreatest_month (t : Instant) :
    IsGreatest {b | DatePoint.month.Boundary b ∧ b ≤ t}
      (.startOfDay (dayNumber ⟨(dateOf t.day).year, (dateOf t.day).month, 1⟩)) := by
  have hdate := dateOf_isValid t.day
  refine isGreatest_date (fun d => d.day = 1) (fun b => Iff.rfl)
    (isValid_firstOfMonth hdate) rfl ?_ ?_
  · have hpos := hdate.day_pos
    simp only [Date.Before]
    omega
  · intro d hday
    simp only [Date.Before]
    omega

private theorem isGreatest_year (t : Instant) :
    IsGreatest {b | DatePoint.year.Boundary b ∧ b ≤ t}
      (.startOfDay (dayNumber ⟨(dateOf t.day).year, 1, 1⟩)) := by
  have hdate := dateOf_isValid t.day
  refine isGreatest_date (fun d => d.month = 1 ∧ d.day = 1) (fun b => Iff.rfl)
    (isValid_firstOfYear _) ⟨rfl, rfl⟩ ?_ ?_
  · have hmonth := hdate.month_pos
    have hpos := hdate.day_pos
    simp only [Date.Before]
    omega
  · rintro d ⟨hmonth, hday⟩
    simp only [Date.Before]
    omega

end

/-- The start of the period around an instant is the last start not after it. -/
theorem isGreatest_of_resolve? {p : DatePoint} {t r : Instant} (h : p.resolve? t = some r) :
    IsGreatest {b | p.Boundary b ∧ b ≤ t} r := by
  cases p with
  | now =>
    cases h
    exact ⟨⟨trivial, le_refl _⟩, fun b hb => hb.2⟩
  | second =>
    cases h
    have hwhole := isGreatest_whole (p := .second) 1 (by decide)
      (fun b => by simp only [Boundary, Int.emod_one, and_true]) t
    rwa [Int.emod_one, Int.sub_zero] at hwhole
  | minute =>
    cases h
    exact isGreatest_whole 60 (by decide) (fun b => Iff.rfl) t
  | hour =>
    cases h
    exact isGreatest_whole 3600 (by decide) (fun b => Iff.rfl) t
  | day =>
    cases h
    exact isGreatest_startOfDay (fun b hb => hb) (Instant.isMidnight_startOfDay _) (Int.le_refl _)
      fun b _ hle => hle
  | week =>
    simp only [resolve?, Option.ite_none_right_eq_some, Option.some.injEq] at h
    rw [← h.2]
    exact isGreatest_week t
  | month =>
    cases h
    exact isGreatest_month t
  | year =>
    cases h
    exact isGreatest_year t

/-- Only a week may have no start, and one that starts somewhere starts there. -/
theorem exists_resolve?_of_resolve? {p : DatePoint} {t r : Instant} (h : p.resolve? t = some r) :
    ∃ r', p.resolve? r = some r' := by
  cases p with
  | week =>
    have hmonday := (isGreatest_of_resolve? h).1.1.2
    simp only [resolve?, Option.ite_none_right_eq_some, Option.some.injEq] at h ⊢
    rw [hmonday, ← h.2, Instant.day_startOfDay, Int.sub_zero]
    exact ⟨_, h.1, rfl⟩
  | _ => exact ⟨_, rfl⟩

/-- The start of the period around an instant is the last instant not after it at which such a
period starts, it is its own start, and a later instant has a later start or the same. -/
theorem resolve?_floor {p : DatePoint} {t r : Instant} (h : p.resolve? t = some r) :
    IsGreatest {b | p.Boundary b ∧ b ≤ t} r ∧ p.resolve? r = some r ∧
      ∀ t' r', t ≤ t' → p.resolve? t' = some r' → r ≤ r' := by
  have hgreatest := isGreatest_of_resolve? h
  refine ⟨hgreatest, ?_, ?_⟩
  · obtain ⟨r', hr'⟩ := exists_resolve?_of_resolve? h
    have hself : IsGreatest {b | p.Boundary b ∧ b ≤ r} r :=
      ⟨⟨hgreatest.1.1, le_refl r⟩, fun b hb => hb.2⟩
    rw [hr', (isGreatest_of_resolve? hr').unique hself]
  · intro t' r' hle hr'
    exact (isGreatest_of_resolve? hr').2 ⟨hgreatest.1.1, le_trans hgreatest.1.2 hle⟩

/-- A leap second before 1970, and the month that it ends. -/
theorem resolve?_floor_leapSecond :
    DatePoint.month.resolve? ⟨-1, 1999999999⟩ = some ⟨-2678400, 0⟩ ∧
      IsGreatest {b | DatePoint.month.Boundary b ∧ b ≤ ⟨-1, 1999999999⟩} ⟨-2678400, 0⟩ ∧
      DatePoint.month.resolve? ⟨-2678400, 0⟩ = some ⟨-2678400, 0⟩ ∧
      ∀ t' r', ⟨-1, 1999999999⟩ ≤ t' → DatePoint.month.resolve? t' = some r' →
        (⟨-2678400, 0⟩ : Instant) ≤ r' := by
  have h : DatePoint.month.resolve? ⟨-1, 1999999999⟩ = some ⟨-2678400, 0⟩ := by decide
  exact ⟨h, resolve?_floor h⟩

end DatePoint

end PipeQuery
