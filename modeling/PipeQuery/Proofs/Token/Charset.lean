import PipeQuery.Proofs.Token.Numeral

/-!
Delimiters, and which lexemes are written without them.
-/
namespace PipeQuery

namespace TokenKind

def isLiteral : TokenKind → Bool
  | .singleQuoted | .doubleQuoted | .comment | .blockComment => true
  | _ => false

/-- Tokens in which a delimiter is only a part of their text. -/
def hides : TokenKind → Bool
  | .param => true
  | kind => kind.isLiteral

def ofMark? : Char → Option TokenKind
  | '(' => some .openBracket
  | ')' => some .closeBracket
  | '|' => some .pipe
  | ',' => some .comma
  | _ => none

end TokenKind

namespace Text

def isQuote (c : Char) : Bool := ['"', '\''].contains c

/-- The characters that make a relation of the text around them. -/
def isRelational (c : Char) : Bool := ['=', '<', '>'].contains c

def isDelimiter (c : Char) : Bool :=
  isQuote c || (TokenKind.ofMark? c).isSome || isRelational c || isBlank c

def Lacks (sorts : List (Char → Bool)) (cs : List Char) : Prop :=
  ∀ c ∈ cs, ∀ sort ∈ sorts, sort c = false

theorem Lacks.mono {sorts : List (Char → Bool)} {cs ds : List Char} (h : Lacks sorts cs)
    (hsub : ds ⊆ cs) : Lacks sorts ds :=
  fun c hc => h c (hsub hc)

theorem mem_of_ofMark? {c : Char} (h : (TokenKind.ofMark? c).isSome) :
    c ∈ ['(', ')', '|', ','] := by
  unfold TokenKind.ofMark? at h
  split at h <;> simp_all

/-- A delimiter is of one sort only. -/
theorem isBlank_delimiter {c : Char} (h : isBlank c) :
    isQuote c = false ∧ TokenKind.ofMark? c = none ∧ isRelational c = false := by
  have hne (ds : List Char) (hds : ds.all fun d => !isBlank d) : c ∉ ds := by
    intro hc
    have hd := List.all_eq_true.mp hds c hc
    rw [h] at hd
    cases hd
  refine ⟨?_, ?_, ?_⟩
  · simpa [isQuote] using hne ['"', '\''] (by decide)
  · rw [← Option.not_isSome_iff_eq_none]
    exact fun hmark => hne _ (by decide) (mem_of_ofMark? hmark)
  · simpa [isRelational] using hne ['=', '<', '>'] (by decide)

private theorem toNat_lt_of_isIdentifierRest {c : Char} (h : isIdentifierRest c) :
    c.toNat < 128 := by
  delta isIdentifierRest Char.isAlphanum Char.isAlpha Char.isUpper Char.isLower Char.isDigit at h
  simp only [Bool.or_eq_true, Bool.and_eq_true, decide_eq_true_eq, beq_iff_eq,
    UInt32.le_iff_toNat_le, ge_iff_le] at h
  rcases h with h | rfl
  · have hnat : c.toNat = c.val.toNat := rfl
    have hZ : 'Z'.val.toNat = 90 := rfl
    have hz : 'z'.val.toNat = 122 := rfl
    have h9 : '9'.val.toNat = 57 := rfl
    omega
  · decide

theorem isDelimiter_of_isIdentifierRest {c : Char} (h : isIdentifierRest c) :
    isDelimiter c = false := by
  have hall : ((List.range 128).all fun n =>
      !isIdentifierRest (Char.ofNat n) || !isDelimiter (Char.ofNat n)) = true := by decide +kernel
  have hc := List.all_eq_true.mp hall c.toNat (List.mem_range.mpr (toNat_lt_of_isIdentifierRest h))
  simpa [h] using hc

theorem isIdentifierRest_of_start {c : Char} (h : isIdentifierStart c) : isIdentifierRest c := by
  simp only [isIdentifierStart, Bool.or_eq_true] at h
  rcases h with h | h
  · simp [isIdentifierRest, Char.isAlphanum, h]
  · simp [isIdentifierRest, h]

private theorem isRelational_of_isDecimal {c : Char} (h : isDecimal c) :
    isRelational c = false := by
  simpa using of_isDecimal (P := fun c => !isRelational c) (by decide +kernel) h

/-- The letters of the tests for null are no delimiters in any case. -/
theorem isDelimiter_of_sameLetter {w c : Char} (hw : w ∈ ['i', 's', 'n', 'o', 't', 'u', 'l'])
    (h : sameLetter w c) : isDelimiter c = false := by
  have hletters : ['i', 's', 'n', 'o', 't', 'u', 'l'].all (fun w =>
      fold w == w && w.toNat != 0 && !isDelimiter w && foldRanges.all fun r =>
        !r.covers (w.toNat - r.shift).toNat ||
          !isDelimiter (Char.ofNat (w.toNat - r.shift).toNat)) = true := by decide +kernel
  have hall := List.all_eq_true.mp hletters w hw
  simp only [Bool.and_eq_true, beq_iff_eq, bne_iff_ne, ne_eq] at hall
  obtain ⟨⟨⟨hfold, hzero⟩, hself⟩, hranges⟩ := hall
  simpa using of_sameLetter (P := fun c => !isDelimiter c) hfold hzero hself hranges h

end Text

namespace Words

/-- A word is read letter by letter. -/
theorem exists_of_afterWord? {ws cs rest : List Char} (h : afterWord? ws cs = some rest) :
    ∃ front, cs = front ++ rest ∧ front.length = ws.length ∧
      ∀ c ∈ front, ∃ w ∈ ws, Text.sameLetter w c := by
  induction ws generalizing cs with
  | nil =>
    cases h
    exact ⟨[], rfl, rfl, by simp⟩
  | cons w ws ih =>
    cases cs with
    | nil => cases h
    | cons c cs =>
      rw [afterWord?] at h
      split at h
      next hsame =>
        obtain ⟨front, rfl, hlength, hletters⟩ := ih h
        refine ⟨c :: front, rfl, by simp [hlength], ?_⟩
        intro d hd
        rcases List.mem_cons.mp hd with rfl | hd
        · exact ⟨w, List.mem_cons_self, hsame⟩
        · obtain ⟨v, hv, hsame⟩ := hletters d hd
          exact ⟨v, List.mem_cons_of_mem _ hv, hsame⟩
      next => cases h

/-- A word that is written with the letters of the tests for null. -/
def isTestWord (word : String) : Bool :=
  word != "" && word.toList.all ['i', 's', 'n', 'o', 't', 'u', 'l'].contains

private theorem exists_of_afterTestWord? {word : String} (hword : isTestWord word)
    {cs rest : List Char} (h : afterWord? word.toList cs = some rest) :
    ∃ front d, cs = front ++ d :: rest ∧ Text.isDelimiter d = false ∧
      ∀ c ∈ front, Text.isDelimiter c = false := by
  simp only [isTestWord, Bool.and_eq_true, bne_iff_ne, List.all_eq_true,
    List.contains_iff_mem] at hword
  obtain ⟨letters, rfl, hlength, hletters⟩ := exists_of_afterWord? h
  have hplain : ∀ c ∈ letters, Text.isDelimiter c = false := by
    intro c hc
    obtain ⟨w, hw, hsame⟩ := hletters c hc
    exact Text.isDelimiter_of_sameLetter (hword.2 w hw) hsame
  rcases List.eq_nil_or_concat letters with rfl | ⟨front, d, rfl⟩
  · have hnil : word.toList = [] := List.length_eq_zero_iff.mp hlength.symm
    exact absurd (String.toList_eq_nil_iff.mp hnil) hword.1
  · refine ⟨front, d, by simp, hplain d (by simp), ?_⟩
    intro c hc
    exact hplain c (by simp [hc])

/-- A test for null has no delimiters but the blanks between its words. -/
theorem exists_of_afterPhrase? {words : List String} (hne : words ≠ [])
    (hwords : words.all isTestWord) {cs rest : List Char}
    (h : afterPhrase? words cs = some rest) :
    ∃ front d, cs = front ++ d :: rest ∧ Text.isDelimiter d = false ∧
      ∀ c ∈ front, Text.isDelimiter c → Text.isBlank c := by
  induction words generalizing cs with
  | nil => exact absurd rfl hne
  | cons word words ih =>
    obtain ⟨hword, hrest⟩ : isTestWord word ∧ words.all isTestWord := by simpa using hwords
    cases words with
    | nil =>
      obtain ⟨after, hafter, hend⟩ := Option.bind_eq_some_iff.mp h
      split at hend
      next =>
        cases hend
        obtain ⟨front, d, hcs, hd, hfront⟩ := exists_of_afterTestWord? hword hafter
        refine ⟨front, d, hcs, hd, ?_⟩
        intro c hc hdelimiter
        rw [hfront c hc] at hdelimiter
        cases hdelimiter
      next => cases hend
    | cons next words =>
      obtain ⟨after, hafter, hlater⟩ := Option.bind_eq_some_iff.mp h
      obtain ⟨start, hstart, hphrase⟩ := Option.bind_eq_some_iff.mp hlater
      obtain ⟨front, d, rfl, hd, hfront⟩ := exists_of_afterTestWord? hword hafter
      obtain ⟨others, e, rfl, he, hothers⟩ := ih (by simp) hrest hphrase
      -- What stands between the words is dropped by `afterBlanks?`.
      obtain ⟨blanks, rfl, hblanks⟩ :
          ∃ blanks, after = blanks ++ (others ++ e :: rest) ∧ ∀ c ∈ blanks, Text.isBlank c := by
        rw [afterBlanks?] at hstart
        split at hstart
        next =>
          refine ⟨after.takeWhile Text.isBlank, ?_, List.all_eq_true.mp List.all_takeWhile⟩
          rw [← Option.some.inj hstart, List.takeWhile_append_dropWhile]
        next => cases hstart
      refine ⟨front ++ d :: blanks ++ others, e, by simp, he, ?_⟩
      intro c hc hdelimiter
      simp only [List.append_assoc, List.cons_append, List.mem_append, List.mem_cons] at hc
      rcases hc with hc | rfl | hc | hc
      · rw [hfront c hc] at hdelimiter
        cases hdelimiter
      · rw [hd] at hdelimiter
        cases hdelimiter
      · exact hblanks c hc
      · exact hothers c hc hdelimiter

theorem not_relational_of_keyword {cs : List Char} {kind : TokenKind}
    (h : keyword? cs = some kind) : ∀ c ∈ cs, Text.isRelational c = false := by
  have hletters : ∀ word ∈ keywords, (word.1.toList.map Char.toLower).all fun c =>
      !Text.isRelational c := by decide +kernel
  have hlower : ['=', '<', '>'].all fun c => c.toLower == c := by decide
  obtain ⟨word, hfind, -⟩ := Option.map_eq_some_iff.mp h
  have hsame := List.find?_some hfind
  simp only [Text.sameIgnoringCaseChars, beq_iff_eq] at hsame
  have hall := List.all_eq_true.mp (hletters word (List.mem_of_find?_eq_some hfind))
  rw [hsame] at hall
  intro c hc
  rw [← Bool.not_eq_true]
  intro hrelation
  have hself := List.all_eq_true.mp hlower c (List.contains_iff_mem.mp hrelation)
  have hnot := hall c.toLower (List.mem_map_of_mem hc)
  rw [beq_iff_eq.mp hself, hrelation] at hnot
  cases hnot

theorem not_relational_of_arith {cs : List Char} {kind : TokenKind} (h : arith? cs = some kind) :
    ∀ c ∈ cs, Text.isRelational c = false := by
  have hsymbols : Arith.all.all fun op => op.symbol.toList.all fun c => !Text.isRelational c := by
    decide
  obtain ⟨op, hfind, -⟩ := Option.map_eq_some_iff.mp h
  have hsymbol : op.symbol.toList = cs := by simpa using List.find?_some hfind
  have hall := List.all_eq_true.mp hsymbols op (List.mem_of_find?_eq_some hfind)
  rw [hsymbol] at hall
  intro c hc
  simpa using List.all_eq_true.mp hall c hc

end Words

namespace Shape
variable {cs rest : List Char}

section
variable {P : Char → Prop}

private theorem forall_of_afterExactly? (hdigit : ∀ c, Text.isDecimal c → P c) {n : Nat}
    (h : afterExactly? n cs = some rest) (hrest : ∀ c ∈ rest, P c) : ∀ c ∈ cs, P c := by
  induction n generalizing cs with
  | zero =>
    cases h
    exact hrest
  | succ n ih =>
    cases cs with
    | nil => cases h
    | cons c cs =>
      rw [afterExactly?] at h
      split at h
      next hc => exact List.forall_mem_cons.mpr ⟨hdigit c hc, ih h⟩
      next => cases h

private theorem forall_of_afterOneOf? {allowed : List Char} (hallowed : ∀ c ∈ allowed, P c)
    (h : afterOneOf? allowed cs = some rest) (hrest : ∀ c ∈ rest, P c) : ∀ c ∈ cs, P c := by
  obtain ⟨c, hc, rfl⟩ := cons_of_afterOneOf? h
  exact List.forall_mem_cons.mpr ⟨hallowed c hc, hrest⟩

private theorem forall_of_takeWhile (hdigit : ∀ c, Text.isDecimal c → P c) :
    ∀ c ∈ cs.takeWhile Text.isDecimal, P c := by
  intro c hc
  exact hdigit c (List.all_eq_true.mp List.all_takeWhile c hc)

def marks : List Char := ['-', 'T', ':', '.', 'Z', '+']

private theorem forall_of_afterSeconds? (hdigit : ∀ c, Text.isDecimal c → P c)
    (hmarks : ∀ c ∈ marks, P c) (h : afterSeconds? cs = some rest) (hrest : ∀ c ∈ rest, P c) :
    ∀ c ∈ cs, P c := by
  simp only [afterSeconds?, Option.bind_eq_bind, Option.bind_eq_some_iff] at h
  obtain ⟨_, hyear, _, hdash, _, hmonth, _, hdash', _, hday, _, hT, _, hhour, _, hcolon, _,
    hminute, _, hcolon', hsecond⟩ := h
  have hmark {c : Char} (hc : c ∈ marks) : ∀ d ∈ [c], P d :=
    List.forall_mem_singleton.mpr (hmarks c hc)
  have hminutes := forall_of_afterExactly? hdigit hminute <|
    forall_of_afterOneOf? (hmark (by simp [marks])) hcolon' <|
      forall_of_afterExactly? hdigit hsecond hrest
  have hhours := forall_of_afterExactly? hdigit hhour <|
    forall_of_afterOneOf? (hmark (by simp [marks])) hcolon hminutes
  have hdays := forall_of_afterExactly? hdigit hday <|
    forall_of_afterOneOf? (hmark (by simp [marks])) hT hhours
  have hmonths := forall_of_afterExactly? hdigit hmonth <|
    forall_of_afterOneOf? (hmark (by simp [marks])) hdash' hdays
  exact forall_of_afterExactly? hdigit hyear <|
    forall_of_afterOneOf? (hmark (by simp [marks])) hdash hmonths

private theorem forall_of_afterSubseconds? (hdigit : ∀ c, Text.isDecimal c → P c)
    (hmarks : ∀ c ∈ marks, P c) (h : afterSubseconds? cs = some rest) (hrest : ∀ c ∈ rest, P c) :
    ∀ c ∈ cs, P c := by
  revert h
  fun_cases afterSubseconds? cs with
  | case1 cs digits hdigits =>
    intro h
    refine List.forall_mem_cons.mpr ⟨hmarks _ (by simp [marks]), ?_⟩
    intro c hc
    rw [← List.take_append_drop digits cs] at hc
    rcases List.mem_append.mp hc with hc | hc
    · rw [← List.prefix_iff_eq_take.mp (List.takeWhile_prefix _)] at hc
      exact forall_of_takeWhile hdigit c hc
    · exact hrest c (Option.some.inj h ▸ hc)
  | case2 =>
    intro h
    cases h
  | case3 =>
    intro h
    cases h
    exact hrest

private theorem forall_of_isZone (hdigit : ∀ c, Text.isDecimal c → P c) (hmarks : ∀ c ∈ marks, P c)
    (h : isZone cs) : ∀ c ∈ cs, P c := by
  revert h
  fun_cases isZone cs with
  | case1 => simp
  | case2 => exact fun _ => List.forall_mem_singleton.mpr (hmarks _ (by simp [marks]))
  | case3 cs hnil hZ =>
    intro h
    simp only [Option.bind_eq_bind, beq_iff_eq, Option.bind_eq_some_iff] at h
    obtain ⟨_, hsign, _, hhour, _, hcolon, hminute⟩ := h
    have hsigns : ∀ c ∈ ['+', '-'], P c := by
      intro c hc
      exact hmarks c ((by simp [marks] : ['+', '-'] ⊆ marks) hc)
    have hminutes := forall_of_afterExactly? hdigit hminute (by simp)
    exact forall_of_afterOneOf? hsigns hsign <| forall_of_afterExactly? hdigit hhour <|
      forall_of_afterOneOf? (List.forall_mem_singleton.mpr (hmarks _ (by simp [marks]))) hcolon
        hminutes

/-- What holds of digits and marks holds of all characters of a date-time. -/
theorem forall_of_isDateTime (hdigit : ∀ c, Text.isDecimal c → P c) (hmarks : ∀ c ∈ marks, P c)
    (h : isDateTime cs) : ∀ c ∈ cs, P c := by
  rw [isDateTime] at h
  split at h
  next zone hzone =>
    obtain ⟨subseconds, hseconds, hsubseconds⟩ := Option.bind_eq_some_iff.mp hzone
    exact forall_of_afterSeconds? hdigit hmarks hseconds <|
      forall_of_afterSubseconds? hdigit hmarks hsubseconds (forall_of_isZone hdigit hmarks h)
  next => cases h

end

theorem not_relational_of_isDateTime (h : isDateTime cs) :
    ∀ c ∈ cs, Text.isRelational c = false := by
  have hmarks : marks.all fun c => !Text.isRelational c := by decide
  refine forall_of_isDateTime (fun _ => Text.isRelational_of_isDecimal) ?_ h
  intro c hc
  simpa using List.all_eq_true.mp hmarks c hc

theorem not_relational_of_isDuration (h : isDuration cs) :
    ∀ c ∈ cs, Text.isRelational c = false := by
  rw [isDuration] at h
  split at h
  next unit hunit =>
    have hunits : units.all fun u => u.toList.all fun c => !Text.isRelational c := by decide
    obtain ⟨u, hu, heq⟩ := List.any_eq_true.mp h
    have hletters := List.all_eq_true.mp (List.all_eq_true.mp hunits u hu)
    rw [beq_iff_eq.mp heq] at hletters
    rw [afterDigits?] at hunit
    split at hunit
    next =>
      cases hunit
      intro c hc
      rw [← List.takeWhile_append_dropWhile (p := Text.isDecimal) (l := cs)] at hc
      rcases List.mem_append.mp hc with hc | hc
      · exact forall_of_takeWhile (fun _ => Text.isRelational_of_isDecimal) c hc
      · simpa using hletters c hc
    next => cases hunit
  next => cases h

end Shape

end PipeQuery
