import Mathlib.Data.List.Basic
import Mathlib.Data.List.Induction
import Mathlib.Data.List.TakeWhile
import Mathlib.Data.Nat.Digits.Defs
import PipeQuery.Proofs.Group.Moved
import PipeQuery.Proofs.Time.Calendar
import PipeQuery.Proofs.Token.DateTime
import PipeQuery.Time.Expression

/-!
Timestamps and the instants that they name. A timestamp is written in digits of fixed widths, with
an optional fraction and an optional zone. Its text is one token, and this token is read as the
instant at which clocks in universal time show the time written less what the zone is ahead.
-/
namespace PipeQuery

namespace Text

def padded (width n : Nat) : List Char :=
  List.replicate (width - (Nat.toDigits 10 n).length) '0' ++ Nat.toDigits 10 n

private theorem isDecimal_of_isDigit {c : Char} (h : c.isDigit) : isDecimal c := by
  delta Char.isDigit at h
  rw [Bool.and_eq_true, decide_eq_true_eq, decide_eq_true_eq, ge_iff_le,
    UInt32.le_iff_toNat_le, UInt32.le_iff_toNat_le] at h
  have hlow : 48 ≤ c.toNat := h.1
  have hhigh : c.toNat ≤ 57 := h.2
  rw [isDecimal, decimalZeros, List.any_cons, Bool.or_eq_true, Bool.and_eq_true,
    decide_eq_true_eq, decide_eq_true_eq]
  left
  omega

end Text

/-- The digits are as many as the width and have the value `n`. -/
structure Numeral (width n : Nat) (cs : List Char) : Prop where
  length : cs.length = width
  digits : ∀ c ∈ cs, c.isDigit
  value : DateLiteral.natOfDigits cs = n

private theorem DateLiteral.natOfDigits_eq (cs : List Char) :
    natOfDigits cs = Nat.ofDigitChars 10 cs 0 := by
  simp only [natOfDigits, Nat.ofDigitChars_eq_foldl, Nat.mul_comm]

namespace Numeral
variable {width n : Nat} {cs : List Char}

private theorem padded (hwidth : 0 < width) (h : n < 10 ^ width) :
    Numeral width n (Text.padded width n) := by
  have hlength := (Nat.length_toDigits_le_iff (by decide) hwidth).mpr h
  refine ⟨?_, ?_, ?_⟩
  · rw [Text.padded, List.length_append, List.length_replicate]
    omega
  · intro c hc
    rcases List.mem_append.mp hc with hc | hc
    · rw [List.eq_of_mem_replicate hc]
      decide
    · exact Nat.isDigit_of_mem_toDigits (by decide) (by decide) hc
  · rw [DateLiteral.natOfDigits_eq, Text.padded, Nat.ofDigitChars_append,
      Nat.ofDigitChars_replicate_zero, Nat.mul_zero, Nat.ofDigitChars_ten_toDigits]

/-- A field of full width ends where its digits end. -/
theorem field_eq (h : Numeral width n cs) (hwidth : 0 < width) (rest : List Char) :
    DateLiteral.field width (cs ++ rest) = .ok (n, rest) := by
  have hdigits : ((cs ++ rest).take width).takeWhile Char.isDigit = cs := by
    rw [← h.length, List.take_left]
    exact List.takeWhile_eq_self_iff.mpr h.digits
  have hne : cs.isEmpty = false := by
    rw [List.isEmpty_eq_false_iff, ← List.length_pos_iff, h.length]
    exact hwidth
  simp only [DateLiteral.field, hdigits, hne, h.value, List.drop_left, Bool.false_eq_true, if_false]

private theorem bounded_eq (h : Numeral width n cs) (hwidth : 0 < width) {lo hi : Nat}
    (hlo : lo ≤ n) (hhi : n ≤ hi) (rest : List Char) :
    DateLiteral.bounded width lo hi (cs ++ rest) = .ok (n, rest) := by
  rw [DateLiteral.bounded, h.field_eq hwidth]
  exact if_pos ⟨hlo, hhi⟩

private theorem afterExactly?_eq (h : Numeral width n cs) (rest : List Char) :
    Shape.afterExactly? width (cs ++ rest) = some rest := by
  obtain ⟨rfl, hdigits, -⟩ := h
  induction cs with
  | nil => rfl
  | cons c cs ih =>
    obtain ⟨hc, hcs⟩ := List.forall_mem_cons.mp hdigits
    rw [List.cons_append, List.length_cons, Shape.afterExactly?,
      if_pos (Text.isDecimal_of_isDigit hc)]
    exact ih hcs

end Numeral

/-- How a timestamp ends: with nothing, with the letter for universal time, or with the hours and
minutes that its clock is ahead of universal time or behind it. -/
inductive Zone where
  | unmarked
  | universal
  | offset (behind : Bool) (hours : Fin 24) (minutes : Fin 60)

namespace Zone

def chars : Zone → List Char
  | .unmarked => []
  | .universal => ['Z']
  | .offset behind hours minutes =>
    (if behind then '-' else '+') :: (Text.padded 2 hours ++ ':' :: Text.padded 2 minutes)

def ahead : Zone → Int
  | .unmarked | .universal => 0
  | .offset behind hours minutes =>
    let seconds : Int := (hours : Nat) * 3600 + (minutes : Nat) * 60
    if behind then -seconds else seconds

/-- What stands before a zone ends there, if it has no letters and signs. -/
theorem stops (z : Zone) {p : Char → Bool} (hp : ['Z', '+', '-'].all fun c => !p c) {c : Char}
    (h : z.chars.head? = some c) : p c = false := by
  have hmarks : ∀ d ∈ ['Z', '+', '-'], p d = false := by simpa using hp
  refine hmarks c ?_
  cases z with
  | unmarked => cases h
  | universal =>
    cases h
    decide
  | offset behind hours minutes =>
    cases h
    cases behind <;> decide

private theorem ne_dot (z : Zone) (cs : List Char) : z.chars ≠ '.' :: cs := by
  intro heq
  have hdot := @stops z (· == '.') (by decide) '.' (by rw [heq, List.head?_cons])
  cases hdot

/-- The digits of an offset. -/
theorem exists_offset (behind : Bool) (hours : Fin 24) (minutes : Fin 60) :
    ∃ h₁ h₂ m₁ m₂, (offset behind hours minutes).chars =
        [if behind then '-' else '+', h₁, h₂, ':', m₁, m₂] ∧
      Numeral 2 hours [h₁, h₂] ∧ Numeral 2 minutes [m₁, m₂] := by
  have hhours : Numeral 2 hours (Text.padded 2 hours) := .padded (by decide) (by omega)
  have hminutes : Numeral 2 minutes (Text.padded 2 minutes) := .padded (by decide) (by omega)
  obtain ⟨h₁, h₂, heq⟩ := List.length_eq_two.mp hhours.length
  obtain ⟨m₁, m₂, heq'⟩ := List.length_eq_two.mp hminutes.length
  rw [heq] at hhours
  rw [heq'] at hminutes
  refine ⟨h₁, h₂, m₁, m₂, ?_, hhours, hminutes⟩
  rw [chars, heq, heq']
  rfl

private theorem isZone_chars (z : Zone) : Shape.isZone z.chars := by
  cases z with
  | unmarked => rfl
  | universal => rfl
  | offset behind hours minutes =>
    obtain ⟨h₁, h₂, m₁, m₂, hchars, hhours, hminutes⟩ := exists_offset behind hours minutes
    have hcolon := hhours.afterExactly?_eq [':', m₁, m₂]
    have hend := hminutes.afterExactly?_eq []
    simp only [List.cons_append, List.nil_append] at hcolon hend
    have hsign : (if behind then '-' else '+') ∈ ['+', '-'] := by cases behind <;> decide
    rw [hchars]
    simp [Shape.isZone, Shape.afterOneOf?, hsign, hcolon, hend]

private theorem zone?_chars {z : Zone} (h : z ≠ .unmarked) :
    DateLiteral.zone? z.chars = some z.ahead := by
  cases z with
  | unmarked => exact absurd rfl h
  | universal => rfl
  | offset behind hours minutes =>
    obtain ⟨h₁, h₂, m₁, m₂, hchars, hhours, hminutes⟩ := exists_offset behind hours minutes
    have hdigits : [h₁, h₂, m₁, m₂].all Char.isDigit := by
      simpa [and_assoc] using And.intro hhours.digits hminutes.digits
    have hbounds : (hours : Nat) ≤ 23 ∧ (minutes : Nat) ≤ 59 := by omega
    rw [hchars]
    simp only [DateLiteral.zone?, hhours.value, hminutes.value, hdigits, hbounds]
    cases behind <;> rfl

end Zone

/-- A date and a time of day to the second, with up to nine digits of a fraction and a zone. The
calendar has the date. -/
structure Timestamp where
  year : Fin 10000
  month : Nat
  day : Nat
  valid : Date.IsValid ⟨(year : Nat), month, day⟩
  hour : Fin 24
  minute : Fin 60
  second : Fin 60
  fraction : List (Fin 10)
  fraction_le : fraction.length ≤ 9
  zone : Zone

namespace Timestamp

def date (t : Timestamp) : Date := ⟨(t.year : Nat), t.month, t.day⟩

def secondOfDay (t : Timestamp) : Int :=
  (t.hour : Nat) * 3600 + (t.minute : Nat) * 60 + (t.second : Nat)

def numerator (t : Timestamp) : Nat := Nat.ofDigits 10 (t.fraction.map Fin.val).reverse

def digits (t : Timestamp) : List Char := t.fraction.map fun d => Nat.digitChar d.val

def subseconds (t : Timestamp) : List Char := if t.fraction = [] then [] else '.' :: t.digits

def clock (t : Timestamp) (rest : List Char) : List Char :=
  Text.padded 4 t.year ++ '-' :: (Text.padded 2 t.month ++ '-' :: (Text.padded 2 t.day ++ 'T' ::
    (Text.padded 2 t.hour ++ ':' :: (Text.padded 2 t.minute ++ ':' ::
      (Text.padded 2 t.second ++ rest)))))

def text (t : Timestamp) : String :=
  String.ofList (t.clock (t.subseconds ++ t.zone.chars))

def nanos (t : Timestamp) : Nat := t.numerator * 10 ^ (9 - t.fraction.length)

private theorem nanos_exact (t : Timestamp) :
    t.nanos * 10 ^ t.fraction.length = t.numerator * Instant.nanosPerSecond := by
  have hsum : 9 - t.fraction.length + t.fraction.length = 9 := Nat.sub_add_cancel t.fraction_le
  rw [nanos, Nat.mul_assoc, ← Nat.pow_add, hsum]
  rfl

private theorem numeral_digits (t : Timestamp) :
    Numeral t.fraction.length t.numerator t.digits := by
  refine ⟨List.length_map _, ?_, ?_⟩
  · intro c hc
    obtain ⟨d, -, rfl⟩ := List.mem_map.mp hc
    rw [Nat.isDigit_digitChar, decide_eq_true_eq]
    exact d.isLt
  · rw [digits, numerator]
    generalize t.fraction = ds
    induction ds using List.reverseRecOn with
    | nil => rfl
    | append_singleton ds d ih =>
      rw [DateLiteral.natOfDigits_eq] at ih ⊢
      rw [List.map_append, Nat.ofDigitChars_append, ih, List.map_append, List.reverse_append,
        List.map_singleton, List.map_singleton, List.reverse_singleton, List.singleton_append,
        Nat.ofDigits_cons, Nat.ofDigitChars_cons, Nat.ofDigitChars_nil,
        Nat.toNat_digitChar_of_lt_ten d.isLt, show '0'.toNat = 48 from rfl]
      omega

theorem day_le (t : Timestamp) : t.day ≤ 31 :=
  Nat.le_trans t.valid.day_le (Calendar.monthLength_le _ _)

/-- All fields fit into their widths. -/
theorem numerals (t : Timestamp) : Numeral 4 t.year (Text.padded 4 t.year) ∧
    Numeral 2 t.month (Text.padded 2 t.month) ∧ Numeral 2 t.day (Text.padded 2 t.day) ∧
    Numeral 2 t.hour (Text.padded 2 t.hour) ∧ Numeral 2 t.minute (Text.padded 2 t.minute) ∧
    Numeral 2 t.second (Text.padded 2 t.second) := by
  have hmonth : t.month ≤ 12 := t.valid.month_le
  have hday := t.day_le
  refine ⟨?_, ?_, ?_, ?_, ?_, ?_⟩ <;> exact .padded (by decide) (by omega)

private theorem afterSeconds?_clock (t : Timestamp) (rest : List Char) :
    Shape.afterSeconds? (t.clock rest) = some rest := by
  obtain ⟨hyear, hmonth, hday, hhour, hminute, hsecond⟩ := t.numerals
  have hmark (c : Char) (cs : List Char) : Shape.afterOneOf? [c] (c :: cs) = some cs := by
    simp [Shape.afterOneOf?]
  simp only [clock, Shape.afterSeconds?, Option.bind_eq_bind, Option.bind_some, hmark,
    hyear.afterExactly?_eq, hmonth.afterExactly?_eq, hday.afterExactly?_eq,
    hhour.afterExactly?_eq, hminute.afterExactly?_eq, hsecond.afterExactly?_eq]

private theorem civil_clock (t : Timestamp) {rest rest' : List Char} {nanos : Nat}
    (h : DateLiteral.fraction rest = .ok (nanos, rest')) :
    DateLiteral.civil (t.clock rest) =
      .ok (⟨t.date, t.hour, t.minute, t.second, nanos⟩, rest') := by
  obtain ⟨hyear, hmonth, hday, hhour, hminute, hsecond⟩ := t.numerals
  have hyears := hyear.field_eq (by decide)
  have hmonths := hmonth.bounded_eq (by decide) t.valid.month_pos t.valid.month_le
  have hdays := hday.bounded_eq (by decide) t.valid.day_pos t.day_le
  have hhours := hhour.bounded_eq (by decide) (Nat.zero_le _) (Nat.le_of_lt_succ t.hour.isLt)
  have hminutes := hminute.bounded_eq (by decide) (Nat.zero_le _)
    (Nat.le_of_lt_succ t.minute.isLt)
  have hseconds := hsecond.bounded_eq (by decide) (Nat.zero_le _) (Nat.le_of_lt t.second.isLt)
  simp only [clock, DateLiteral.civil, DateLiteral.skip, bind, Except.bind, hyears, hmonths, hdays,
    hhours, hminutes, hseconds, h, if_true]
  rfl

private theorem fraction_eq (t : Timestamp) :
    DateLiteral.fraction (t.subseconds ++ t.zone.chars) = .ok (t.nanos, t.zone.chars) := by
  rw [subseconds]
  split
  next hnil =>
    have hzero : t.nanos = 0 := by simp [nanos, numerator, hnil]
    rw [hzero, List.nil_append, DateLiteral.fraction.eq_def]
    split
    next heq => exact absurd heq (t.zone.ne_dot _)
    next => rfl
  next hne =>
    have hdigits : ((t.digits ++ t.zone.chars).take 9).takeWhile Char.isDigit = t.digits := by
      have hle : t.digits.length ≤ 9 := t.numeral_digits.length ▸ t.fraction_le
      rw [List.take_append, List.take_of_length_le hle]
      refine takeWhile_append_eq t.numeral_digits.digits ?_
      intro c hc
      rw [List.head?_take] at hc
      split at hc
      next => cases hc
      next => exact t.zone.stops (by decide) hc
    have hempty : t.digits.isEmpty = false := by simpa [digits] using hne
    simp only [List.cons_append, DateLiteral.fraction, hdigits, hempty, List.drop_left,
      t.numeral_digits.value, Bool.false_eq_true, if_false]
    rw [t.numeral_digits.length]
    rfl

private theorem afterSubseconds?_eq (t : Timestamp) :
    Shape.afterSubseconds? (t.subseconds ++ t.zone.chars) = some t.zone.chars := by
  rw [subseconds]
  split
  next hnil =>
    rw [List.nil_append, Shape.afterSubseconds?.eq_def]
    split
    next heq => exact absurd heq (t.zone.ne_dot _)
    next => rfl
  next hne =>
    have hdigits : (t.digits ++ t.zone.chars).takeWhile Text.isDecimal = t.digits :=
      takeWhile_append_eq (fun c hc => Text.isDecimal_of_isDigit (t.numeral_digits.digits c hc))
        fun c => t.zone.stops (by decide)
    have hlength : 1 ≤ t.digits.length ∧ t.digits.length ≤ 9 := by
      rw [t.numeral_digits.length]
      exact ⟨List.length_pos_iff.mpr hne, t.fraction_le⟩
    simp [Shape.afterSubseconds?, hdigits, hlength]

private theorem isDateTime_text (t : Timestamp) : Shape.isDateTime t.text.toList := by
  rw [text, String.toList_ofList, Shape.isDateTime, afterSeconds?_clock, Option.bind_some,
    afterSubseconds?_eq]
  exact t.zone.isZone_chars

private theorem isValid_civil (t : Timestamp) :
    DateLiteral.Civil.isValid ⟨t.date, t.hour, t.minute, t.second, t.nanos⟩ := by
  rw [DateLiteral.Civil.isValid, decide_eq_true_eq]
  exact t.valid.day_le

private theorem toInstant_civil (t : Timestamp) :
    DateLiteral.Civil.toInstant ⟨t.date, t.hour, t.minute, t.second, t.nanos⟩ =
      ⟨Calendar.dayNumber t.date * Instant.secondsPerDay + t.secondOfDay, t.nanos⟩ := by
  have hsecond : (t.second : Nat) ≠ 60 := by omega
  simp only [DateLiteral.Civil.toInstant, hsecond, if_false, secondOfDay, Int.add_assoc]

def instant (t : Timestamp) : Instant :=
  ⟨Calendar.dayNumber t.date * Instant.secondsPerDay + t.secondOfDay - t.zone.ahead, t.nanos⟩

theorem read_eq (t : Timestamp) : DateLiteral.read t.text = .ok t.instant := by
  have hcivil := t.civil_clock t.fraction_eq
  have hvalid := t.isValid_civil
  have hinstant := t.toInstant_civil
  rw [DateLiteral.read, text, String.toList_ofList]
  by_cases hzone : t.zone = .unmarked
  · -- Without a zone the first reading fails, and the second one takes the time as universal.
    have hnone : DateLiteral.zone? t.zone.chars = none := by rw [hzone, Zone.chars]; rfl
    have hahead : t.zone.ahead = 0 := by rw [hzone, Zone.ahead]
    have hempty : t.zone.chars.isEmpty = true := by rw [hzone, Zone.chars]; rfl
    simp [DateLiteral.zoned?, DateLiteral.unzoned, hcivil, hnone, hempty, hvalid, hinstant, instant,
      hahead, bind, Except.bind, Except.mapError, pure, Except.pure]
  · simp [DateLiteral.zoned?, hcivil, Zone.zone?_chars hzone, hvalid, hinstant, instant]

private theorem tokens_text (t : Timestamp) :
    Lexer.tokens t.text = [⟨.dateTime, t.text, ⟨0, t.text.utf8ByteSize⟩⟩] := by
  rw [Lexer.tokens, Lexer.pieces_of_isDateTime t.isDateTime_text]
  simp only [Lexer.layout, Text.byteLength_toList, Nat.zero_add]

/-- A date-time alone is read as a date expression without durations. -/
theorem read_token (t : Timestamp) (reference : Instant) :
    DateExpression.read reference
      [.token ⟨.dateTime, t.text, ⟨0, t.text.utf8ByteSize⟩⟩] = .ok t.instant := by
  have hslice : Text.slice t.text ⟨0, t.text.utf8ByteSize⟩ = t.text := by
    have hwhole := @Text.slice_between t.text [] t.text.toList [] (by simp)
    simpa [Text.byteLength, Text.byteLength_toList] using hwhole
  simp only [DateExpression.read, if_true, Token.slice, hslice, read_eq]
  rfl

/-- The text of a timestamp is one token, and this is read as the instant that comes after the
first of January 1970 by the days up to its date and the seconds of its clock, less those that its
zone is ahead. Its nanoseconds are exactly the fraction. -/
theorem read_text (t : Timestamp) (reference : Instant) :
    Lexer.tokens t.text = [⟨.dateTime, t.text, ⟨0, t.text.utf8ByteSize⟩⟩] ∧
    ∃ root instant days, Group.ofTokens (Lexer.tokens t.text) = .ok root ∧
      DateExpression.read reference root.children = .ok instant ∧ t.date.HasNumber days ∧
      instant.seconds = days * 86400 + t.secondOfDay - t.zone.ahead ∧
      instant.nanos * 10 ^ t.fraction.length = t.numerator * 1000000000 := by
  have hformed : Formed (Token.meaningful (Lexer.tokens t.text))
      [.token ⟨.dateTime, t.text, ⟨0, t.text.utf8ByteSize⟩⟩] := by
    rw [tokens_text]
    exact .leaf ⟨by simp, by simp, by simp, by simp, by simp [TokenKind.isClause]⟩ .nil
  obtain ⟨root, hroot, hchildren⟩ := hformed.ofTokens_eq
  refine ⟨t.tokens_text, root, t.instant, Calendar.dayNumber t.date, hroot, ?_, ?_, rfl,
    t.nanos_exact⟩
  · rw [hchildren]
    exact t.read_token reference
  · exact (Calendar.hasNumber_iff t.valid).mpr rfl

/-- Half past midnight in a zone in which March has begun, and in universal time has not. -/
def halfPast : Timestamp where
  year := 2000
  month := 3
  day := 1
  valid := ⟨by decide, by decide, by decide, by decide⟩
  hour := 0
  minute := 30
  second := 0
  fraction := [2, 5]
  fraction_le := by decide
  zone := .offset false 1 30

theorem read_text_sample :
    halfPast.text = "2000-03-01T00:30:00.25+01:30" ∧
    (∃ root instant days, Group.ofTokens (Lexer.tokens halfPast.text) = .ok root ∧
      DateExpression.read ⟨0, 0⟩ root.children = .ok instant ∧
      Date.HasNumber ⟨2000, 3, 1⟩ days ∧ instant.seconds = days * 86400 + 1800 - 5400 ∧
      instant.nanos * 100 = 25 * 1000000000) ∧
    DateLiteral.read "2000-03-01T00:30:00.25+01:30" = .ok ⟨951865200, 250000000⟩ :=
  ⟨by decide +kernel, (read_text halfPast ⟨0, 0⟩).2, by decide +kernel⟩

end Timestamp

end PipeQuery
