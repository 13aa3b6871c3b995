import Mathlib.Algebra.BigOperators.Group.List.Basic
import Mathlib.Algebra.Ring.Int.Defs
import PipeQuery.Proofs.Time.Overflow

/-!
Durations of a fixed length are added exactly. An instant that is no leap second is a number of
nanoseconds, and a date expression stands for its start and the sum of its durations, if the
calendar has the instants after each of them. So their order does not matter.
-/
namespace PipeQuery

namespace Instant

def toNanos (t : Instant) : Int := t.seconds * nanosPerSecond + t.nanos

def Representable (n : Int) : Prop :=
  firstSecond * nanosPerSecond ≤ n ∧ n < (lastSecond + 1) * nanosPerSecond

instance (n : Int) : Decidable (Representable n) := inferInstanceAs (Decidable (_ ∧ _))

def ofNanos? (n : Int) : Option Instant :=
  ofParts? (n / nanosPerSecond) (n % nanosPerSecond).toNat

private theorem cast_nanosPerSecond : (nanosPerSecond : Int) = 1000000000 := rfl

private theorem representable_iff (n : Int) :
    Representable n ↔ firstSecond ≤ n / nanosPerSecond ∧ n / nanosPerSecond ≤ lastSecond := by
  rw [Representable, cast_nanosPerSecond]
  omega

private theorem ofNanos?_eq_none {n : Int} (h : ¬ Representable n) : ofNanos? n = none :=
  if_neg (mt (representable_iff n).mpr h)

private theorem exists_ofNanos? {n : Int} (h : Representable n) :
    ∃ t, ofNanos? n = some t ∧ t.toNanos = n ∧ t.nanos < nanosPerSecond := by
  refine ⟨_, if_pos ((representable_iff n).mp h), ?_, ?_⟩
  · rw [toNanos, cast_nanosPerSecond]
    dsimp only
    omega
  · show (n % 1000000000).toNat < 1000000000
    omega

/-- Less than a second is carried in either direction. -/
theorem carry?_eq_ofNanos? {seconds nanos : Int} (hlow : -nanosPerSecond ≤ nanos)
    (hhigh : nanos < 2 * nanosPerSecond) :
    carry? seconds nanos = ofNanos? (seconds * nanosPerSecond + nanos) := by
  have hparts {s : Int} {k : Nat} (hs : s = (seconds * nanosPerSecond + nanos) / nanosPerSecond)
      (hk : k = ((seconds * nanosPerSecond + nanos) % nanosPerSecond).toNat) :
      ofParts? s k = ofNanos? (seconds * nanosPerSecond + nanos) := by
    rw [ofNanos?, hs, hk]
  rw [cast_nanosPerSecond] at hlow hhigh hparts ⊢
  rw [carry?, cast_nanosPerSecond]
  split
  · exact hparts (by omega) (by omega)
  · split
    · exact hparts (by omega) (by omega)
    · exact hparts (by omega) (by omega)

/-- From an instant that is no leap second, nanoseconds are added to its nanoseconds. -/
theorem add?_eq_ofNanos? {t : Instant} (h : t.nanos < nanosPerSecond) (change : Int) :
    t.add? change = ofNanos? (t.toNanos + change) := by
  have hsplit := Int.mul_tdiv_add_tmod change nanosPerSecond
  have hlow := Int.lt_tmod_of_pos change (b := nanosPerSecond) (by decide)
  have hhigh := Int.tmod_lt_of_pos change (b := nanosPerSecond) (by decide)
  have hsum : (t.seconds + change.tdiv nanosPerSecond) * nanosPerSecond +
      (t.nanos + change.tmod nanosPerSecond) = t.toNanos + change := by
    rw [toNanos, Int.add_mul, Int.mul_comm (change.tdiv nanosPerSecond)]
    omega
  rw [← hsum, ← carry?_eq_ofNanos? (by omega) (by omega)]
  exact if_neg (Nat.not_le_of_lt h)

private theorem eq_of_toNanos_eq {a b : Instant} (ha : a.nanos < nanosPerSecond)
    (hb : b.nanos < nanosPerSecond) (h : a.toNanos = b.toNanos) : a = b := by
  obtain ⟨s, n⟩ := a
  obtain ⟨s', n'⟩ := b
  rw [toNanos, toNanos, cast_nanosPerSecond] at h
  simp only [nanosPerSecond, mk.injEq] at *
  omega

/-- Changes of an instant that is so many nanoseconds after the start of 1970, one after the other,
lead to instants that the calendar has. -/
def StaysInRange (start : Int) (changes : List Int) : Prop :=
  ∀ front, front <+: changes → front ≠ [] → Representable (start + front.sum)

private theorem staysInRange_nil (start : Int) : StaysInRange start [] := by
  intro front hfront hne
  exact absurd (List.prefix_nil.mp hfront) hne

private theorem staysInRange_cons {start change : Int} {changes : List Int} :
    StaysInRange start (change :: changes) ↔
      Representable (start + change) ∧ StaysInRange (start + change) changes := by
  constructor
  · intro h
    constructor
    · simpa using h [change] ⟨changes, rfl⟩ (by simp)
    · intro front hfront hne
      have hlonger := h (change :: front) (List.prefix_cons_inj change |>.mpr hfront) (by simp)
      rwa [List.sum_cons, ← Int.add_assoc] at hlonger
  · rintro ⟨hfirst, hrest⟩ front hfront hne
    rcases List.prefix_cons_iff.mp hfront with rfl | ⟨others, rfl, hothers⟩
    · exact absurd rfl hne
    · rw [List.sum_cons, ← Int.add_assoc]
      by_cases hnil : others = []
      · simpa [hnil] using hfirst
      · exact hrest others hothers hnil

end Instant

namespace DateExpression

def nanosIn : List (String × Nat) :=
  ("ns", 1) :: ("ms", 1000000) :: secondsIn.map fun u => (u.1, u.2 * Instant.nanosPerSecond)

def maxNanos : Nat := maxAmount * 1000000

/-- A duration of a fixed length that the arithmetic holds, and its nanoseconds: its amount and the
whole duration are within the bounds. -/
def Lasts (text : String) (n : Nat) : Prop :=
  ∃ (digits : List Char) (unit : String) (scale : Nat), text.toList = digits ++ unit.toList ∧
    digits ≠ [] ∧ (∀ c ∈ digits, c.isDigit) ∧ (unit, scale) ∈ nanosIn ∧
    DateLiteral.natOfDigits digits ≤ maxAmount ∧ n = DateLiteral.natOfDigits digits * scale ∧
    n ≤ maxNanos

private theorem shiftOf_of_mem_secondsIn {unit : String} {n : Nat} (h : (unit, n) ∈ secondsIn)
    (text : String) (amount : Nat) : shiftOf text amount unit = seconds (amount * n) := by
  rw [shiftOf.eq_def]
  split
  case h_3 | h_4 | h_5 | h_6 | h_7 =>
    obtain rfl : n = _ := by simpa [secondsIn] using h
    simp only [Nat.mul_one]
  case h_10 => simp_all [secondsIn]
  all_goals simp [secondsIn] at h

private theorem le_maxSeconds {n : Nat} (h : n * Instant.nanosPerSecond ≤ maxNanos) :
    n ≤ maxSeconds := by
  rw [maxSeconds, Nat.le_div_iff_mul_le (by decide)]
  refine Nat.le_of_mul_le_mul_right (c := 1000000) ?_ (by decide)
  rwa [Nat.mul_assoc]

/-- Within the bounds, an amount in a unit is so many nanoseconds. -/
theorem shiftOf_of_mem_nanosIn {unit : String} {scale : Nat} (h : (unit, scale) ∈ nanosIn)
    (text : String) {amount : Nat} (hle : amount * scale ≤ maxNanos) :
    shiftOf text amount unit = .ok (.nanos (amount * scale)) := by
  simp only [nanosIn, List.mem_cons, Prod.mk.injEq, List.mem_map, Prod.exists] at h
  rcases h with ⟨rfl, rfl⟩ | ⟨rfl, rfl⟩ | ⟨unit, n, hunit, rfl, rfl⟩
  · rw [Nat.mul_one]
    rfl
  · rfl
  · rw [← Nat.mul_assoc] at hle ⊢
    rw [shiftOf_of_mem_secondsIn hunit, seconds, if_pos (le_maxSeconds hle)]

private theorem Lasts.readDuration_eq {text : String} {n : Nat} (h : Lasts text n) :
    readDuration text = .ok (.nanos n) := by
  obtain ⟨digits, unit, scale, htext, hne, hdigits, hunit, hamount, rfl, hle⟩ := h
  have hletters : ∀ p ∈ nanosIn, p.1.toList.takeWhile Char.isDigit = [] := by decide
  rw [readDuration_eq_shiftOf htext hne hdigits (hletters _ hunit) hamount]
  exact shiftOf_of_mem_nanosIn hunit text hle

/-- Nodes that change an instant by so many nanoseconds: a duration, which may have a sign before
it. -/
inductive Offset : List Node → Int → Prop where
  | mk {nodes : List Node} {back : Bool} {d : Node} {n : Nat} (move : Move nodes back d)
      (kind : d.kind = .duration) (length : Lasts d.text n) :
      Offset nodes (if back then -(n : Int) else n)

private theorem apply_nanos_eq (t : Instant) (back : Bool) (n : Nat) :
    apply t back (.nanos n) =
      (t.add? (if back then -(n : Int) else n)).elim (.error (.rejected .outOfRange)) .ok := by
  rw [apply.eq_def]
  extract_lets signed result
  change _ = result.elim _ _
  clear_value result
  cases result with
  | none => rfl
  | some r => rfl

/-- The step of one offset: the instant after it, or an error if the calendar does not have it. -/
theorem Offset.shiftAll_append {nodes : List Node} {change : Int} (h : Offset nodes change)
    {t : Instant} (ht : t.nanos < Instant.nanosPerSecond) (rest : List Node) :
    shiftAll t (nodes ++ rest) = (Instant.ofNanos? (t.toNanos + change)).elim
      (.error (.rejected .outOfRange)) (shiftAll · rest) := by
  obtain ⟨move, kind, length⟩ := h
  rw [move.shiftAll_append, shiftBy, if_pos kind, length.readDuration_eq,
    ← Instant.add?_eq_ofNanos? ht]
  simp only [bind, Except.bind, apply_nanos_eq]
  cases t.add? _ with
  | none => rfl
  | some r => rfl

theorem Offset.read_append {nodes : List Node} {change : Int} (h : Offset nodes change)
    (reference : Instant) (rest : List Node) :
    read reference (nodes ++ rest) = shiftAll reference (nodes ++ rest) := by
  obtain ⟨move, -, -⟩ := h
  exact move.read_append reference rest

def nodesOf (offsets : List (List Node × Int)) : List Node := offsets.flatMap (·.1)

def changesOf (offsets : List (List Node × Int)) : List Int := offsets.map (·.2)

variable {offsets : List (List Node × Int)} {t : Instant}

/-- The run of offsets whose instants the calendar has: their changes add up. -/
theorem shiftAll_of_staysInRange (hoffsets : ∀ o ∈ offsets, Offset o.1 o.2)
    (ht : t.nanos < Instant.nanosPerSecond)
    (h : Instant.StaysInRange t.toNanos (changesOf offsets)) :
    ∃ r, shiftAll t (nodesOf offsets) = .ok r ∧ r.nanos < Instant.nanosPerSecond ∧
      r.toNanos = t.toNanos + (changesOf offsets).sum := by
  induction offsets generalizing t with
  | nil => exact ⟨t, rfl, ht, (Int.add_zero _).symm⟩
  | cons o offsets ih =>
    obtain ⟨hfirst, hrest⟩ := Instant.staysInRange_cons.mp h
    obtain ⟨t₁, hsome, hsum, ht₁⟩ := Instant.exists_ofNanos? hfirst
    rw [← hsum] at hrest
    obtain ⟨hoffset, hothers⟩ := List.forall_mem_cons.mp hoffsets
    obtain ⟨r, hr, hnanos, htotal⟩ := ih hothers ht₁ hrest
    refine ⟨r, ?_, hnanos, ?_⟩
    · rw [nodesOf, List.flatMap_cons, hoffset.shiftAll_append ht, hsome]
      exact hr
    · rw [htotal, hsum, changesOf, changesOf, List.map_cons, List.sum_cons, Int.add_assoc]

/-- The run of other offsets ends at the first instant that the calendar does not have. -/
theorem shiftAll_of_not_staysInRange (hoffsets : ∀ o ∈ offsets, Offset o.1 o.2)
    (ht : t.nanos < Instant.nanosPerSecond)
    (h : ¬ Instant.StaysInRange t.toNanos (changesOf offsets)) :
    shiftAll t (nodesOf offsets) = .error (.rejected .outOfRange) := by
  induction offsets generalizing t with
  | nil => exact absurd (Instant.staysInRange_nil _) h
  | cons o offsets ih =>
    obtain ⟨hoffset, hothers⟩ := List.forall_mem_cons.mp hoffsets
    rw [nodesOf, List.flatMap_cons, hoffset.shiftAll_append ht]
    by_cases hfirst : Instant.Representable (t.toNanos + o.2)
    · obtain ⟨t₁, hsome, hsum, ht₁⟩ := Instant.exists_ofNanos? hfirst
      have hrest : ¬ Instant.StaysInRange t₁.toNanos (changesOf offsets) := by
        intro hrest
        rw [hsum] at hrest
        exact h (Instant.staysInRange_cons.mpr ⟨hfirst, hrest⟩)
      rw [hsome]
      exact ih hothers ht₁ hrest
    · rw [Instant.ofNanos?_eq_none hfirst]
      rfl

/-- The nodes that an expression starts with, and the instant that its offsets count from. -/
inductive Start (reference : Instant) : List Node → Instant → Prop where
  | point {name opening closing : Token} {source : String} {span : Span} {children : List Node}
      {p : DatePoint} {t : Instant} (call : DatePoint.ofFunction? (Text.slice source span) = some p)
      (resolved : p.resolve? reference = some t) :
      Start reference [.group (.function name opening closing) source span children] t
  | literal {u : Token} {t : Instant} (kind : u.kind = .dateTime)
      (value : DateLiteral.read u.slice = .ok t) : Start reference [.token u] t
  | reference : Start reference [] reference

theorem Start.read_eq {reference : Instant} {front : List Node} (h : Start reference front t)
    (hoffsets : ∀ o ∈ offsets, Offset o.1 o.2) (hne : front ≠ [] ∨ offsets ≠ []) :
    read reference (front ++ nodesOf offsets) = shiftAll t (nodesOf offsets) := by
  cases h with
  | point call resolved =>
    rw [List.singleton_append, read, callPoint]
    simp only [call, resolved]
    rfl
  | literal kind value =>
    rw [List.singleton_append, read, if_pos kind, value]
    rfl
  | reference =>
    cases offsets with
    | nil => simp at hne
    | cons o offsets =>
      rw [List.nil_append, nodesOf, List.flatMap_cons]
      exact (hoffsets o List.mem_cons_self).read_append _ _

/-- An expression stands for its start and the sum of its offsets, as long as the calendar has the
instant after each of them, and in any such order. Otherwise it is refused. -/
theorem read_offsets {reference : Instant} {front : List Node} (hstart : Start reference front t)
    (ht : t.nanos < Instant.nanosPerSecond) (hoffsets : ∀ o ∈ offsets, Offset o.1 o.2)
    (hne : front ≠ [] ∨ offsets ≠ []) :
    (Instant.StaysInRange t.toNanos (changesOf offsets) →
      ∃ r, read reference (front ++ nodesOf offsets) = .ok r ∧ r.nanos < Instant.nanosPerSecond ∧
        r.toNanos = t.toNanos + (changesOf offsets).sum) ∧
    (¬ Instant.StaysInRange t.toNanos (changesOf offsets) →
      ∃ e, read reference (front ++ nodesOf offsets) = .error (.rejected e) ∧
        e.message = "Date out of range") ∧
    ∀ others, others.Perm offsets → Instant.StaysInRange t.toNanos (changesOf offsets) →
      Instant.StaysInRange t.toNanos (changesOf others) →
      read reference (front ++ nodesOf others) = read reference (front ++ nodesOf offsets) := by
  rw [hstart.read_eq hoffsets hne]
  refine ⟨shiftAll_of_staysInRange hoffsets ht, ?_, ?_⟩
  · intro h
    exact ⟨.outOfRange, shiftAll_of_not_staysInRange hoffsets ht h, rfl⟩
  · intro others hperm h hothers
    have hoffsets' : ∀ o ∈ others, Offset o.1 o.2 := fun o ho => hoffsets o (hperm.mem_iff.mp ho)
    have hne' : front ≠ [] ∨ others ≠ [] := by
      refine hne.imp_right (mt ?_)
      rintro rfl
      exact hperm.nil_eq.symm
    obtain ⟨r, hr, hnanos, hsum⟩ := shiftAll_of_staysInRange hoffsets ht h
    obtain ⟨r', hr', hnanos', hsum'⟩ := shiftAll_of_staysInRange hoffsets' ht hothers
    have hsame : (changesOf others).sum = (changesOf offsets).sum := (hperm.map _).sum_eq
    rw [hstart.read_eq hoffsets' hne', hr, hr',
      Instant.eq_of_toNanos_eq hnanos hnanos' (by rw [hsum, hsum', hsame])]

/-- A day before the start of 1970, and five milliseconds after that. -/
theorem read_offsets_sample :
    let token (kind : TokenKind) (start stop : Nat) : Node :=
      .token ⟨kind, "- 1d 5ms", ⟨start, stop⟩⟩
    let day := [token (.arith .subtract) 0 1, token .duration 2 4]
    let milliseconds := [token .duration 5 8]
    read ⟨0, 0⟩ (day ++ milliseconds) = .ok ⟨-86400, 5000000⟩ ∧
      read ⟨0, 0⟩ (milliseconds ++ day) = .ok ⟨-86400, 5000000⟩ := by
  intro token day milliseconds
  have hday : Offset day (-86400000000000) :=
    .mk (.subtract rfl) rfl ⟨['1'], "d", 86400000000000, by decide, by decide,
      List.all_eq_true.mp (by decide), by decide⟩
  have hmilliseconds : Offset milliseconds 5000000 :=
    .mk (.bare rfl) rfl ⟨['5'], "ms", 1000000, by decide, by decide,
      List.all_eq_true.mp (by decide), by decide⟩
  have hoffsets : ∀ o ∈ [(day, (-86400000000000 : Int)), (milliseconds, 5000000)],
      Offset o.1 o.2 := by
    simp [hday, hmilliseconds]
  have hstart : Start ⟨0, 0⟩ [] ⟨0, 0⟩ := .reference
  have hinRange : Instant.StaysInRange 0 [-86400000000000, 5000000] := by
    simp only [Instant.staysInRange_cons, Instant.staysInRange_nil]
    decide
  have hinRange' : Instant.StaysInRange 0 [5000000, -86400000000000] := by
    simp only [Instant.staysInRange_cons, Instant.staysInRange_nil]
    decide
  obtain ⟨hsum, -, horder⟩ := read_offsets hstart (by decide) hoffsets (.inr (by simp))
  obtain ⟨r, hread, hnanos, hr⟩ := hsum hinRange
  obtain rfl : r = ⟨-86400, 5000000⟩ := Instant.eq_of_toNanos_eq hnanos (by decide) hr
  exact ⟨hread, (horder _ (.swap _ _ _) hinRange hinRange').trans hread⟩

end DateExpression

end PipeQuery
