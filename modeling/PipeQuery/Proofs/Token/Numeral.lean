import PipeQuery.Token.Rules

/-!
The characters of numbers, and what a number is never taken for.
-/
namespace PipeQuery

namespace Text

/-- What holds of every run of ten digits holds of all digits. -/
theorem of_isDecimal {P : Char → Bool}
    (h : (decimalZeros.all fun start =>
      (List.range 10).all fun d => P (Char.ofNat (start + d))) = true)
    {c : Char} (hc : isDecimal c) : P c := by
  obtain ⟨start, hstart, hrange⟩ := List.any_eq_true.mp hc
  simp only [Bool.and_eq_true, decide_eq_true_eq] at hrange
  have hd := List.all_eq_true.mp (List.all_eq_true.mp h start hstart) (c.toNat - start)
    (List.mem_range.mpr (by omega))
  rwa [Nat.add_sub_cancel' hrange.1, Char.ofNat_toNat] at hd

/-- The cases of a letter are the letter itself and what the ranges move to it. -/
theorem of_sameLetter {P : Char → Bool} {w : Char} (hw : fold w = w) (hne : w.toNat ≠ 0)
    (hself : P w) (h : (foldRanges.all fun r =>
      !r.covers (w.toNat - r.shift).toNat || P (Char.ofNat (w.toNat - r.shift).toNat)) = true)
    {c : Char} (hc : sameLetter w c) : P c := by
  rw [sameLetter, hw, beq_iff_eq, fold] at hc
  split at hc
  next r hr =>
    have hcovers := List.find?_some hr
    have hsum : w.toNat = (c.toNat + r.shift).toNat := by
      have hnat := congrArg Char.toNat hc
      rw [Char.ofNat] at hnat
      by_cases hvalid : (c.toNat + r.shift).toNat.isValidChar
      · rw [dif_pos hvalid] at hnat
        exact hnat
      · rw [dif_neg hvalid] at hnat
        exact absurd hnat hne
    have hback : (w.toNat - r.shift).toNat = c.toNat := by omega
    have hP := List.all_eq_true.mp h r (List.mem_of_find?_eq_some hr)
    rw [hback, hcovers, Char.ofNat_toNat] at hP
    exact hP
  next => exact hc ▸ hself

theorem eq_of_sameLetter {c : Char} (h : sameLetter 'i' c) : c = 'i' ∨ c = 'I' := by
  have hcase := of_sameLetter (P := fun c => c == 'i' || c == 'I') (by decide) (by decide)
    (by decide) (by decide +kernel) h
  simpa using hcase

def isNumeral (c : Char) : Bool := isDecimal c || ['-', '.', 'e', 'E', '+'].contains c

def isBare (c : Char) : Bool := isNumeral c || ['^', '/', '*', '%', '=', '!', '<', '>'].contains c

def isPlain (c : Char) : Bool :=
  isBare c || isIdentifierRest c || ['(', ')', ' ', ','].contains c

theorem not_isBlank_of_isBare {c : Char} (h : isBare c) : isBlank c = false := by
  have hmarks {marks : List Char} (hall : marks.all fun c => !isBlank c) (hc : c ∈ marks) :
      isBlank c = false := by
    simpa using List.all_eq_true.mp hall c hc
  simp only [isBare, isNumeral, Bool.or_eq_true, List.contains_iff_mem] at h
  rcases h with (h | h) | h
  · simpa using of_isDecimal (P := fun c => !isBlank c) (by decide +kernel) h
  · exact hmarks (by decide) h
  · exact hmarks (by decide) h

end Text

namespace Shape
open Text
variable {cs rest : List Char}

private theorem chars_of_afterDigits? (h : afterDigits? cs = some rest) :
    (∃ c ∈ cs, isDecimal c) ∧ ((∀ c ∈ rest, isNumeral c) → ∀ c ∈ cs, isNumeral c) := by
  rw [afterDigits?] at h
  split at h
  next hd =>
    cases h
    constructor
    · cases cs with
      | nil => simp at hd
      | cons c cs => exact ⟨c, List.mem_cons_self, by simpa using hd⟩
    · intro hrest c hc
      rw [← List.takeWhile_append_dropWhile (p := isDecimal) (l := cs)] at hc
      rcases List.mem_append.mp hc with hc | hc
      · have hdecimal : isDecimal c := List.all_eq_true.mp List.all_takeWhile c hc
        simp [isNumeral, hdecimal]
      · exact hrest c hc
  next => cases h

theorem cons_of_afterOneOf? {allowed : List Char} (h : afterOneOf? allowed cs = some rest) :
    ∃ c ∈ allowed, cs = c :: rest := by
  cases cs with
  | nil => cases h
  | cons c cs =>
    rw [afterOneOf?] at h
    split at h
    next hc =>
      cases h
      exact ⟨c, List.contains_iff_mem.mp hc, rfl⟩
    next => cases h

private theorem chars_of_optional {allowed : List Char} (hallowed : allowed.all isNumeral)
    (h : ∀ c ∈ (afterOneOf? allowed cs).getD cs, isNumeral c) : ∀ c ∈ cs, isNumeral c := by
  cases ho : afterOneOf? allowed cs with
  | none => simpa [ho] using h
  | some rest =>
    obtain ⟨c, hc, rfl⟩ := cons_of_afterOneOf? ho
    exact List.forall_mem_cons.mpr ⟨List.all_eq_true.mp hallowed c hc, by simpa [ho] using h⟩

private theorem chars_of_afterFraction? (h : afterFraction? cs = some rest)
    (hrest : ∀ c ∈ rest, isNumeral c) : ∀ c ∈ cs, isNumeral c := by
  rw [afterFraction?.eq_def] at h
  split at h
  next ds =>
    have hdigits := (chars_of_afterDigits? h).2 hrest
    exact List.forall_mem_cons.mpr ⟨by decide, hdigits⟩
  next =>
    cases h
    exact hrest

private theorem chars_of_afterExponent? (h : afterExponent? cs = some rest)
    (hrest : ∀ c ∈ rest, isNumeral c) : ∀ c ∈ cs, isNumeral c := by
  rw [afterExponent?] at h
  split at h
  next =>
    cases h
    exact hrest
  next he =>
    have hsigned := (chars_of_afterDigits? h).2 hrest
    obtain ⟨c, hc, rfl⟩ := cons_of_afterOneOf? he
    have hmark : ∀ c ∈ ['e', 'E'], isNumeral c := List.all_eq_true.mp (by decide)
    exact List.forall_mem_cons.mpr ⟨hmark c hc, chars_of_optional (by decide) hsigned⟩

theorem chars_of_isNumber (h : isNumber cs) :
    (∃ c ∈ cs, isDecimal c) ∧ ∀ c ∈ cs, isNumeral c := by
  simp only [isNumber, beq_iff_eq, Option.bind_eq_bind, Option.bind_eq_some_iff] at h
  obtain ⟨whole, hwhole, fraction, hfraction, hexponent⟩ := h
  have hf := chars_of_afterExponent? hexponent nofun
  obtain ⟨⟨c, hc, hd⟩, hw⟩ := chars_of_afterDigits? hwhole
  have hcs := chars_of_optional (by decide) (hw (chars_of_afterFraction? hfraction hf))
  refine ⟨⟨c, ?_, hd⟩, hcs⟩
  cases cs with
  | nil => exact hc
  | cons d ds =>
    rw [afterOneOf?] at hc
    split at hc
    next => exact List.mem_cons_of_mem _ hc
    next => exact hc

private theorem suffix_of_afterExactly? {n : Nat} (h : afterExactly? n cs = some rest) :
    rest <:+ cs := by
  induction n generalizing cs with
  | zero =>
    cases h
    exact List.suffix_refl _
  | succ n ih =>
    cases cs with
    | nil => cases h
    | cons c cs =>
      rw [afterExactly?] at h
      split at h
      next => exact (ih h).trans (List.suffix_cons c cs)
      next => cases h

/-- A date-time has a letter that no number has. -/
theorem not_isDateTime_of_isNumber (h : isNumber cs) : isDateTime cs = false := by
  have hchars := (chars_of_isNumber h).2
  have hnone : afterSeconds? cs = none := by
    rw [Option.eq_none_iff_forall_ne_some]
    intro rest hrest
    simp only [afterSeconds?, Option.bind_eq_bind, Option.bind_eq_some_iff] at hrest
    obtain ⟨year, hyear, _, hdash, month, hmonth, _, hdash', day, hday, _, hT, -⟩ := hrest
    obtain ⟨_, -, rfl⟩ := cons_of_afterOneOf? hdash
    obtain ⟨_, -, rfl⟩ := cons_of_afterOneOf? hdash'
    obtain ⟨c, hc, rfl⟩ := cons_of_afterOneOf? hT
    have hday := (suffix_of_afterExactly? hday).subset List.mem_cons_self
    have hmonth := (suffix_of_afterExactly? hmonth).subset (List.mem_cons_of_mem _ hday)
    have hyear := (suffix_of_afterExactly? hyear).subset (List.mem_cons_of_mem _ hmonth)
    cases List.mem_singleton.mp hc
    exact absurd (hchars _ hyear) (by decide)
  simp [isDateTime, hnone]

/-- A unit starts with a letter that no number has. -/
theorem not_isDuration_of_isNumber (h : isNumber cs) : isDuration cs = false := by
  have hchars := (chars_of_isNumber h).2
  have hunits : ∀ u ∈ units, u.toList.any fun c => !isNumeral c := by decide
  rw [isDuration]
  split
  next unit hunit =>
    rw [List.any_eq_false]
    intro u hu heq
    obtain ⟨c, hc, hnumeral⟩ := List.any_eq_true.mp (hunits u hu)
    rw [beq_iff_eq.mp heq] at hc
    rw [afterDigits?] at hunit
    split at hunit
    next =>
      cases hunit
      have hmem := hchars c ((List.dropWhile_suffix _).subset hc)
      rw [hmem] at hnumeral
      cases hnumeral
    next => cases hunit
  next => rfl

end Shape

namespace Words

theorem keyword?_of_isDecimal {cs : List Char} {c : Char} (hc : c ∈ cs) (hd : Text.isDecimal c) :
    keyword? cs = none := by
  have hletters : ∀ word ∈ keywords, (word.1.toList.map Char.toLower).all Char.isAlpha := by
    decide +kernel
  have hdigit : c.toLower.isAlpha = false := by
    simpa using Text.of_isDecimal (P := fun c => !c.toLower.isAlpha) (by decide +kernel) hd
  rw [keyword?, Option.map_eq_none_iff, List.find?_eq_none]
  intro word hword hsame
  obtain ⟨name, kind⟩ := word
  simp only [Text.sameIgnoringCaseChars, beq_iff_eq] at hsame
  have halpha := List.all_eq_true.mp (hletters _ hword) c.toLower (hsame ▸ List.mem_map_of_mem hc)
  rw [hdigit] at halpha
  cases halpha

theorem arith?_of_isDecimal {cs : List Char} {c : Char} (hc : c ∈ cs) (hd : Text.isDecimal c) :
    arith? cs = none := by
  have hsymbols : ∀ op ∈ Arith.all, op.symbol.toList.all fun c => !Text.isDecimal c := by decide
  rw [arith?, Option.map_eq_none_iff, List.find?_eq_none]
  intro op hop heq
  rw [← beq_iff_eq.mp heq] at hc
  have hnot := List.all_eq_true.mp (hsymbols op hop) c hc
  rw [hd] at hnot
  cases hnot

theorem relations_of_isNumeral {c : Char} (h : Text.isNumeral c) (before back : List Char) :
    relations before (c :: back) = .leave 0 := by
  unfold relations
  split
  next heq => cases heq; exact absurd h (by decide)
  next heq => cases heq; exact absurd h (by decide)
  next heq => cases heq; exact absurd h (by decide)
  next heq => cases heq; exact absurd h (by decide)
  next heq => cases heq; exact absurd h (by decide)
  next heq => cases heq; exact absurd h (by decide)
  next => rfl

end Words

end PipeQuery
