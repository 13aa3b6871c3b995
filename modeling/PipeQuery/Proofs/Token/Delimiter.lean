import PipeQuery.Proofs.Token.Charset
import PipeQuery.Proofs.Token.Scan

/-!
Delimiters in tokens. A bracket, a pipe, a comma, a relation, a blank or a quote stands in a token
that is made for it, or in one that hides its text. Every sort of delimiter is found by one stage of
the lexer, which leaves none of it in unclassified text; what the other stages mark has none.
-/
namespace PipeQuery

open Piece

namespace Piece

/-- The places where blanks may be: runs of blanks, and between the words of a test for null. -/
def MayBeBlank (p : Piece) : Prop :=
  (p.kind = .whitespace ∧ ∀ c ∈ p.chars, Text.isBlank c) ∨
    (p.kind = .isNull ∨ p.kind = .isNotNull) ∧
      ∀ c, p.chars.getLast? = some c → Text.isBlank c = false

/-- A delimiter in the piece is what the piece was made for, unless the piece hides it. -/
structure Tidy (p : Piece) : Prop where
  quote : ∀ c ∈ p.chars, Text.isQuote c → p.kind.isLiteral
  mark : p.kind.hides = false → ∀ c ∈ p.chars, ∀ kind, TokenKind.ofMark? c = some kind →
    p = ⟨kind, [c]⟩
  relation : p.kind.hides = false → ∀ c ∈ p.chars, Text.isRelational c →
    ∃ r : Relation, p = ⟨.relation r, r.symbol.toList⟩
  blank : p.kind.hides = false → ∀ c ∈ p.chars, Text.isBlank c → p.MayBeBlank

namespace Tidy
variable {kind : TokenKind} {cs : List Char}

private theorem of_hides (h : kind.hides) (hquote : ∀ c ∈ cs, Text.isQuote c → kind.isLiteral) :
    Tidy ⟨kind, cs⟩ := by
  refine ⟨hquote, ?_, ?_, ?_⟩
  all_goals
    intro hnot
    rw [h] at hnot
    cases hnot

/-- A piece with blanks as its only delimiters. -/
theorem of_blanks (h : ∀ c ∈ cs, Text.isDelimiter c → Text.isBlank c)
    (hblank : ∀ c ∈ cs, Text.isBlank c → MayBeBlank ⟨kind, cs⟩) : Tidy ⟨kind, cs⟩ := by
  have hsorts (c : Char) (hc : c ∈ cs) (hdelimiter : Text.isDelimiter c) :=
    Text.isBlank_delimiter (h c hc hdelimiter)
  refine ⟨?_, ?_, ?_, fun _ => hblank⟩
  · intro c hc hquote
    simp [hsorts c hc (by simp [Text.isDelimiter, hquote])] at hquote
  · intro _ c hc kind hmark
    simp [hsorts c hc (by simp [Text.isDelimiter, hmark])] at hmark
  · intro _ c hc hrelation
    have hnot := hsorts c hc (by simp [Text.isDelimiter, hrelation])
    simp [hnot] at hrelation

private theorem of_lacks (h : ∀ c ∈ cs, Text.isDelimiter c = false) (kind : TokenKind) :
    Tidy ⟨kind, cs⟩ := by
  refine of_blanks ?_ ?_
  · intro c hc hdelimiter
    simp [h c hc] at hdelimiter
  · intro c hc hblank
    have hnot := h c hc
    simp [Text.isDelimiter, hblank] at hnot

private theorem of_mark {c : Char} (h : TokenKind.ofMark? c = some kind) : Tidy ⟨kind, [c]⟩ := by
  have hmarks : ['(', ')', '|', ','].all fun d =>
      !Text.isQuote d && !Text.isRelational d && !Text.isBlank d := by decide
  have hsorts := List.all_eq_true.mp hmarks c (Text.mem_of_ofMark? (by simp [h]))
  simp only [Bool.and_eq_true, Bool.not_eq_true'] at hsorts
  obtain ⟨⟨hquote, hrelation⟩, hblank⟩ := hsorts
  refine ⟨by simp [hquote], ?_, by simp [hrelation], by simp [hblank]⟩
  intro _ d hd kind' hkind
  cases List.mem_singleton.mp hd
  rw [h] at hkind
  cases hkind
  rfl

private theorem of_relation (r : Relation) : Tidy ⟨.relation r, r.symbol.toList⟩ := by
  have hall : r.symbol.toList.all fun c =>
      !Text.isQuote c && (TokenKind.ofMark? c).isNone && !Text.isBlank c := by
    cases r <;> decide
  have hnot (c : Char) (hc : c ∈ r.symbol.toList) :
      Text.isQuote c = false ∧ TokenKind.ofMark? c = none ∧ Text.isBlank c = false := by
    simpa [and_assoc] using List.all_eq_true.mp hall c hc
  refine ⟨?_, ?_, fun _ _ _ _ => ⟨r, rfl⟩, ?_⟩
  · intro c hc hquote
    simp [hnot c hc] at hquote
  · intro _ c hc kind hmark
    simp [hnot c hc] at hmark
  · intro _ c hc hblank
    simp [hnot c hc] at hblank

private theorem of_test (hkind : kind = .isNull ∨ kind = .isNotNull) {d : Char}
    (hd : Text.isDelimiter d = false) (h : ∀ c ∈ cs, Text.isDelimiter c → Text.isBlank c) :
    Tidy ⟨kind, cs ++ [d]⟩ := by
  refine of_blanks ?_ ?_
  · intro c hc hdelimiter
    rcases List.mem_append.mp hc with hc | hc
    · exact h c hc hdelimiter
    · cases List.mem_singleton.mp hc
      simp [hd] at hdelimiter
  · intro c _ _
    refine .inr ⟨hkind, ?_⟩
    intro e he
    rw [List.getLast?_concat] at he
    cases he
    simp only [Text.isDelimiter, Bool.or_eq_false_iff] at hd
    exact hd.2

end Tidy

end Piece

namespace Rule
variable {rule : Rule} {found : List (Char → Bool)}

/-- In text without the sorts of delimiters that have been found, the rule marks tidy pieces. What
it leaves has none of the sorts found then. -/
structure Sorts (rule : Rule) (found found' : List (Char → Bool)) : Prop where
  marks : ∀ before cs kind more, Text.Lacks found cs → rule before cs = .mark kind more →
    Tidy ⟨kind, cs.take (more + 1)⟩
  leaves : ∀ cs, Text.Lacks found cs → ∀ p ∈ rule.split cs, p.kind = .unknown →
    Text.Lacks found' p.chars

private theorem sorts_of_marks (h : ∀ before cs kind more, Text.Lacks found cs →
    rule before cs = .mark kind more → Tidy ⟨kind, cs.take (more + 1)⟩) :
    rule.Sorts found found :=
  ⟨h, fun _ hcs _ hp _ => hcs.mono (subset_of_mem_split hp)⟩

/-- A rule finds a sort of delimiters if it leaves none where it looks. -/
theorem Steps.sorts (h : rule.Steps) {sort : Char → Bool}
    (hmarks : ∀ before cs kind more, Text.Lacks found cs →
      rule before cs = .mark kind more → Tidy ⟨kind, cs.take (more + 1)⟩)
    (hsort : ∀ before c back, rule before (c :: back) = .leave 0 → sort c = false) :
    rule.Sorts found (sort :: found) := by
  refine ⟨hmarks, ?_⟩
  intro cs hcs p hp hkind c hc d hd
  rcases List.mem_cons.mp hd with rfl | hd
  · obtain ⟨before, back, hleave⟩ := h.leave_of_mem hp hkind hc
    exact hsort before c back hleave
  · exact hcs c (subset_of_mem_split hp hc) d hd

end Rule

/-- What has been classified is tidy, and the rest has none of the delimiters found so far. -/
structure Tidied (found : List (Char → Bool)) (ps : List Piece) : Prop where
  known : ∀ p ∈ ps, p.kind ≠ .unknown → p.Tidy
  rest : ∀ p ∈ ps, p.kind = .unknown → Text.Lacks found p.chars

namespace Tidied
variable {found found' : List (Char → Bool)} {ps : List Piece}

theorem refine {rule : Rule} (h : Tidied found ps) (hrule : rule.Sorts found found') :
    Tidied found' (Piece.refine rule.split ps) := by
  constructor
  · intro p hp hkind
    rcases of_mem_refine hp with ⟨hp, -⟩ | ⟨q, hq, hunknown, hp⟩
    · exact h.known p hp hkind
    · obtain ⟨front, back, hsplit⟩ := List.append_of_mem hp
      obtain ⟨more, hmark, hchars⟩ := Rule.mark_of_scan hsplit hkind
      have hsub : p.chars ++ spell back ⊆ q.chars := by
        rw [← (rule.covers_split q.chars).spells, hsplit, spell_append, spell_cons]
        exact List.subset_append_right _ _
      have htidy := hrule.marks _ _ _ _ ((h.rest q hq hunknown).mono hsub) hmark
      rwa [← hchars] at htidy
  · intro p hp hkind
    rcases of_mem_refine hp with ⟨-, hknown⟩ | ⟨q, hq, hunknown, hp⟩
    · exact absurd hkind hknown
    · exact hrule.leaves q.chars (h.rest q hq hunknown) p hp hkind

theorem classify (h : Tidied found ps) (kindOf? : List Char → Option TokenKind)
    (hkinds : ∀ cs kind, Text.Lacks found cs → kindOf? cs = some kind → Tidy ⟨kind, cs⟩) :
    Tidied found (Piece.classify kindOf? ps) := by
  have hmem {p : Piece} (hp : p ∈ Piece.classify kindOf? ps) :
      p ∈ ps ∨ Text.Lacks found p.chars ∧ p.Tidy := by
    obtain ⟨q, hq, hp⟩ := List.mem_map.mp hp
    split at hp
    next hkind =>
      split at hp
      next kind hsome =>
        subst hp
        exact .inr ⟨h.rest q hq hkind, hkinds _ _ (h.rest q hq hkind) hsome⟩
      next => exact .inl (hp ▸ hq)
    next => exact .inl (hp ▸ hq)
  constructor
  · intro p hp hkind
    rcases hmem hp with hp | ⟨-, htidy⟩
    · exact h.known p hp hkind
    · exact htidy
  · intro p hp hkind
    rcases hmem hp with hp | ⟨hlacks, -⟩
    · exact h.rest p hp hkind
    · exact hlacks

end Tidied

namespace Literal

private theorem sorts_quotes : quotesAndComments.Sorts [] [Text.isQuote] := by
  refine Lexer.steps_quotes.sorts ?_ ?_
  · intro before cs kind more _ hmark
    have hliteral : kind.hides ∧ kind.isLiteral := by
      revert hmark
      fun_cases quotesAndComments before cs <;> (intro hmark; cases hmark) <;> decide
    exact .of_hides hliteral.1 fun _ _ _ => hliteral.2
  · intro before c back hleave
    rw [← Bool.not_eq_true]
    intro hquote
    have hmem : c = '"' ∨ c = '\'' := by simpa [Text.isQuote] using hquote
    rcases hmem with rfl | rfl <;> cases hleave

private theorem sorts_params : params.Sorts [Text.isQuote] [Text.isQuote] := by
  refine Rule.sorts_of_marks ?_
  intro before cs kind more hlacks hmark
  have hkind : kind = .param := by
    revert hmark
    fun_cases params before cs <;> (intro hmark; cases hmark)
    rfl
  subst hkind
  refine .of_hides rfl ?_
  intro c hc hquote
  rw [hlacks c (List.mem_of_mem_take hc) _ List.mem_cons_self] at hquote
  cases hquote

end Literal

namespace Words
variable {found : List (Char → Bool)}

/-- The characters of an identifier are no delimiters. -/
theorem tidy_identifier {c : Char} (hc : Text.isIdentifierStart c) (cs : List Char)
    (kind : TokenKind) :
    Tidy ⟨kind, (c :: cs).take ((cs.takeWhile Text.isIdentifierRest).length + 1)⟩ := by
  have htake : (c :: cs).take ((cs.takeWhile Text.isIdentifierRest).length + 1) =
      c :: cs.takeWhile Text.isIdentifierRest := by
    rw [List.take_succ_cons, ← List.prefix_iff_eq_take.mp (List.takeWhile_prefix _)]
  rw [htake]
  refine .of_lacks ?_ kind
  intro d hd
  refine Text.isDelimiter_of_isIdentifierRest ?_
  rcases List.mem_cons.mp hd with rfl | hd
  · exact Text.isIdentifierRest_of_start hc
  · exact List.all_eq_true.mp List.all_takeWhile d hd

private theorem sorts_commands : commands.Sorts found found := by
  refine Rule.sorts_of_marks ?_
  intro before cs kind more _
  fun_cases commands before cs with
  | case1 before c cs hc =>
    rintro ⟨⟩
    simp only [Bool.and_eq_true] at hc
    exact tidy_identifier hc.1 cs _
  | case2 | case3 =>
    intro hmark
    cases hmark

private theorem sorts_functionNames : functionNames.Sorts found found := by
  refine Rule.sorts_of_marks ?_
  intro before cs kind more _
  fun_cases functionNames before cs with
  | case1 before c cs hc length hname =>
    intro hmark
    obtain ⟨rfl, rfl⟩ := Cut.mark.inj hmark
    exact tidy_identifier hc cs _
  | case2 | case3 | case4 =>
    intro hmark
    cases hmark

private theorem sorts_single {kind : TokenKind} {d : Char} (h : TokenKind.ofMark? d = some kind) :
    (Rule.single kind (· == d)).Sorts found ((· == d) :: found) := by
  have hkind : kind ≠ .unknown := by
    rintro rfl
    unfold TokenKind.ofMark? at h
    split at h <;> cases h
  refine (Lexer.steps_single hkind _).sorts ?_ ?_
  · intro before cs kind' more _
    fun_cases Rule.single kind (· == d) before cs with
    | case1 before c cs hc =>
      rintro ⟨⟩
      cases beq_iff_eq.mp hc
      exact .of_mark h
    | case2 | case3 =>
      intro hmark
      cases hmark
  · intro before c back hleave
    by_cases hc : c == d
    · simp [Rule.single, hc] at hleave
    · simpa using hc

private theorem sorts_blanks : blanks.Sorts found (Text.isBlank :: found) := by
  refine Lexer.steps_blanks.sorts ?_ ?_
  · intro before cs kind more _
    fun_cases blanks before cs with
    | case1 before c cs hc =>
      rintro ⟨⟩
      have htake : (c :: cs).take ((cs.takeWhile Text.isBlank).length + 1) =
          c :: cs.takeWhile Text.isBlank := by
        rw [List.take_succ_cons, ← List.prefix_iff_eq_take.mp (List.takeWhile_prefix _)]
      have hall : ∀ d ∈ c :: cs.takeWhile Text.isBlank, Text.isBlank d :=
        List.forall_mem_cons.mpr ⟨hc, List.all_eq_true.mp List.all_takeWhile⟩
      rw [htake]
      exact .of_blanks (fun d hd _ => hall d hd) fun _ _ _ => .inl ⟨rfl, hall⟩
    | case2 | case3 =>
      intro hmark
      cases hmark
  · intro before c back hleave
    simpa [blanks] using hleave

theorem steps_relations : relations.Steps := by
  intro before cs
  fun_cases relations before cs <;> simp

private theorem sorts_relations : relations.Sorts found (Text.isRelational :: found) := by
  refine steps_relations.sorts ?_ ?_
  · intro before cs kind more _
    fun_cases relations before cs with
    | case1 => rintro ⟨⟩; exact .of_relation .notEqual
    | case2 => rintro ⟨⟩; exact .of_relation .lessEqual
    | case3 => rintro ⟨⟩; exact .of_relation .greaterEqual
    | case4 => rintro ⟨⟩; exact .of_relation .less
    | case5 => rintro ⟨⟩; exact .of_relation .greater
    | case6 => rintro ⟨⟩; exact .of_relation .equal
    | case7 =>
      intro hmark
      cases hmark
  · intro before c back hleave
    rw [← Bool.not_eq_true]
    intro hrelation
    have hmem : c = '=' ∨ c = '<' ∨ c = '>' := by simpa [Text.isRelational] using hrelation
    rcases hmem with rfl | rfl | rfl
    all_goals
      revert hleave
      unfold relations
      split <;> simp_all

private theorem sorts_phrase {kind : TokenKind} (hkind : kind = .isNull ∨ kind = .isNotNull)
    (words : List String) (hne : words ≠ []) (hwords : words.all isTestWord) :
    (phrase kind words).Sorts found found := by
  refine Rule.sorts_of_marks ?_
  intro before cs kind' more _ hmark
  revert hmark
  fun_cases phrase kind words before cs with
  | case1 before cs hbefore rest hphrase =>
    intro hmark
    obtain ⟨rfl, rfl⟩ := Cut.mark.inj hmark
    obtain ⟨front, d, rfl, hd, hfront⟩ := exists_of_afterPhrase? hne hwords hphrase
    have htake : (front ++ d :: rest).take
        ((front ++ d :: rest).length - rest.length - 1 + 1) = front ++ [d] := by
      have hlength : (front ++ d :: rest).length - rest.length - 1 + 1 = (front ++ [d]).length := by
        simp only [List.length_append, List.length_cons, List.length_nil]
        omega
      rw [hlength, List.append_cons front d rest]
      exact List.take_left
    rw [htake]
    exact .of_test hkind hd hfront
  | case2 | case3 =>
    intro hmark
    cases hmark

end Words

namespace Lexer

def cutSorts : List (Char → Bool) :=
  [(· == ','), (· == '|'), Text.isBlank, (· == ')'), (· == '('), Text.isQuote]

/-- A piece that is named after all cuts is tidy if it has no relation in it. -/
theorem tidy_of_cut {cs : List Char} (hcut : Text.Lacks cutSorts cs)
    (h : ∀ c ∈ cs, Text.isRelational c = false) (kind : TokenKind) : Tidy ⟨kind, cs⟩ := by
  refine .of_lacks ?_ kind
  intro c hc
  have hsorts := hcut c hc
  simp only [cutSorts, List.forall_mem_cons, beq_eq_false_iff_ne, List.not_mem_nil] at hsorts
  obtain ⟨hcomma, hpipe, hblank, hclose, hopen, hquote, -⟩ := hsorts
  have hmark : TokenKind.ofMark? c = none := by
    unfold TokenKind.ofMark?
    split <;> simp_all
  simp [Text.isDelimiter, hquote, hmark, h c hc, hblank]

private theorem tidied_start (cs : List Char) : Tidied [] (start cs) := by
  constructor
  · intro p hp
    unfold start at hp
    split at hp
    · cases hp
    · cases List.mem_singleton.mp hp
      exact fun hkind => absurd rfl hkind
  · intro p _ _ c _ sort hsort
    cases hsort

private theorem tidied_cut (cs : List Char) :
    Tidied cutSorts (cutting.foldl (fun ps rule => refine rule.split ps) (start cs)) := by
  have hliterals := ((tidied_start cs).refine Literal.sorts_quotes).refine Literal.sorts_params
  have hnames := (hliterals.refine Words.sorts_commands).refine Words.sorts_functionNames
  have hbrackets := (hnames.refine (Words.sorts_single (d := '(') rfl)).refine
    (Words.sorts_single (d := ')') rfl)
  have hnotNull := hbrackets.refine
    (Words.sorts_phrase (.inr rfl) ["is", "not", "null"] (by simp) (by decide))
  have htests := hnotNull.refine
    (Words.sorts_phrase (.inl rfl) ["is", "null"] (by simp) (by decide))
  have hblanks := htests.refine Words.sorts_blanks
  simp only [cutting, List.foldl_cons, List.foldl_nil]
  exact (hblanks.refine (Words.sorts_single rfl)).refine (Words.sorts_single rfl)

private theorem tidied_named {ps : List Piece} (h : Tidied cutSorts ps) :
    Tidied cutSorts (naming.foldl (fun ps kindOf? => classify kindOf? ps) ps) := by
  refine (((h.classify _ ?_).classify _ ?_).classify _ ?_).classify _ ?_
  · intro cs kind hcut hkeyword
    exact tidy_of_cut hcut (Words.not_relational_of_keyword hkeyword) kind
  · intro cs kind hcut hdate
    split at hdate
    next hshape => exact tidy_of_cut hcut (Shape.not_relational_of_isDateTime hshape) kind
    next => cases hdate
  · intro cs kind hcut hduration
    split at hduration
    next hshape => exact tidy_of_cut hcut (Shape.not_relational_of_isDuration hshape) kind
    next => cases hduration
  · intro cs kind hcut harith
    exact tidy_of_cut hcut (Words.not_relational_of_arith harith) kind

/-- A piece with all sorts of delimiters found around it can be given any kind. -/
theorem tidy_of_found {cs : List Char} (h : Text.Lacks (Text.isRelational :: cutSorts) cs)
    (kind : TokenKind) : Tidy ⟨kind, cs⟩ := by
  refine tidy_of_cut ?_ ?_ kind
  · intro c hc sort hsort
    exact h c hc sort (List.mem_cons_of_mem _ hsort)
  · intro c hc
    exact h c hc _ List.mem_cons_self

/-- No delimiter stands in a tidy `and`, so it is tidy under another kind, too. -/
theorem tidy_of_and {cs : List Char} (h : Tidy ⟨.logic .and, cs⟩) (kind : TokenKind) :
    Tidy ⟨kind, cs⟩ := by
  refine .of_lacks ?_ kind
  intro c hc
  have hquote : Text.isQuote c = false := by
    rw [← Bool.not_eq_true]
    intro hquote
    cases h.quote c hc hquote
  have hmark : TokenKind.ofMark? c = none := by
    cases hmark : TokenKind.ofMark? c with
    | none => rfl
    | some mark =>
      obtain ⟨rfl, -⟩ := Piece.mk.inj (h.mark rfl c hc mark hmark)
      unfold TokenKind.ofMark? at hmark
      split at hmark <;> cases hmark
  have hrelation : Text.isRelational c = false := by
    rw [← Bool.not_eq_true]
    intro hrelation
    obtain ⟨r, heq⟩ := h.relation rfl c hc hrelation
    cases (Piece.mk.inj heq).1
  have hblank : Text.isBlank c = false := by
    rw [← Bool.not_eq_true]
    intro hblank
    rcases h.blank rfl c hc hblank with ⟨hkind, -⟩ | ⟨hkind | hkind, -⟩ <;> cases hkind
  simp [Text.isDelimiter, hquote, hmark, hrelation, hblank]

private theorem tidied_markBetween {found : List (Char → Bool)} {ps : List Piece}
    (h : Tidied found ps) (waiting : Bool) : Tidied found (markBetween waiting ps) := by
  constructor
  · intro q hq hkind
    obtain ⟨p, hp, rfl | ⟨hand, rfl⟩⟩ := exists_of_forall₂ (separates_markBetween waiting ps) hq
    · exact h.known q hp hkind
    · have htidy := h.known p hp (by simp [hand])
      obtain ⟨kind, cs⟩ := p
      cases hand
      exact tidy_of_and htidy .betweenAnd
  · intro q hq hkind
    obtain ⟨p, hp, rfl | ⟨-, rfl⟩⟩ := exists_of_forall₂ (separates_markBetween waiting ps) hq
    · exact h.rest q hp hkind
    · cases hkind

/-- Every piece of a text is tidy. -/
theorem tidy_of_mem_pieces {cs : List Char} {p : Piece} (hp : p ∈ pieces cs) : p.Tidy := by
  have hkind := kind_ne_unknown_of_mem_pieces hp
  have hrelations := (tidied_named (tidied_cut cs)).refine Words.sorts_relations
  have hnumbered := hrelations.classify remaining fun cs kind hfound _ => tidy_of_found hfound kind
  have hwords := (tidied_markBetween hnumbered false).classify (fun _ => some .word)
    fun cs kind hfound _ => tidy_of_found hfound kind
  rw [pieces, ← start] at hp
  exact hwords.known p hp hkind

/-- Delimiters never leak into words. In a token that is no literal, comment or parameter, a
bracket, a pipe or a comma is all there is, a part of a relation stands in this relation, and a
blank stands among blanks or in a test for null. Quotes stand only in literals and comments. -/
theorem tokens_delimiters {text : String} {t : Token} (h : t ∈ tokens text) :
    (t.kind ∉ [.singleQuoted, .doubleQuoted, .comment, .blockComment, .param] →
      (∀ mark ∈ [('(', TokenKind.openBracket), (')', .closeBracket), ('|', .pipe), (',', .comma)],
        mark.1 ∈ t.slice.toList → t.kind = mark.2 ∧ t.slice = String.singleton mark.1) ∧
      (∀ c ∈ t.slice.toList, c ∈ ['=', '<', '>'] →
        ∃ r : Relation, t.kind = .relation r ∧ t.slice = r.symbol) ∧
      ∀ c ∈ t.slice.toList, Text.isBlank c →
        t.kind = .whitespace ∧ (∀ d ∈ t.slice.toList, Text.isBlank d) ∨
          t.kind = .isNull ∨ t.kind = .isNotNull) ∧
    ∀ c ∈ t.slice.toList, c ∈ ['"', '\''] →
      t.kind ∈ [.singleQuoted, .doubleQuoted, .comment, .blockComment] := by
  obtain ⟨⟨kind, cs⟩, hp, hkind, hslice⟩ := exists_of_forall₂ (places_tokens text) h
  have htidy := tidy_of_mem_pieces hp
  rw [hkind, hslice, String.toList_ofList]
  constructor
  · intro hnot
    have hshows : kind.hides = false := by
      cases kind <;> simp_all [TokenKind.hides, TokenKind.isLiteral]
    refine ⟨?_, ?_, ?_⟩
    · rintro ⟨c, mark⟩ hmark hc
      have hmarks : ∀ mark ∈ [('(', TokenKind.openBracket), (')', .closeBracket), ('|', .pipe),
          (',', .comma)], TokenKind.ofMark? mark.1 = some mark.2 := by simp [TokenKind.ofMark?]
      obtain ⟨rfl, rfl⟩ := Piece.mk.inj (htidy.mark hshows c hc mark (hmarks _ hmark))
      exact ⟨rfl, rfl⟩
    · intro c hc hrelation
      obtain ⟨r, heq⟩ := htidy.relation hshows c hc (List.contains_iff_mem.mpr hrelation)
      obtain ⟨rfl, rfl⟩ := Piece.mk.inj heq
      exact ⟨r, rfl, String.ofList_toList⟩
    · intro c hc hblank
      rcases htidy.blank hshows c hc hblank with hall | ⟨htest, -⟩
      · exact .inl hall
      · exact .inr htest
  · intro c hc hquote
    have hliteral := htidy.quote c hc (List.contains_iff_mem.mpr hquote)
    cases kind <;> simp_all [TokenKind.isLiteral]

def delimitedText : String := "x is  null |w>='( '"

theorem tokens_delimiters_sample :
    let test : Token := ⟨.isNull, delimitedText, ⟨2, 10⟩⟩
    let relation : Token := ⟨.relation .greaterEqual, delimitedText, ⟨13, 15⟩⟩
    let literal : Token := ⟨.singleQuoted, delimitedText, ⟨15, 19⟩⟩
    (test ∈ tokens delimitedText ∧ ' ' ∈ test.slice.toList ∧
      (test.kind = .whitespace ∧ (∀ d ∈ test.slice.toList, Text.isBlank d) ∨
        test.kind = .isNull ∨ test.kind = .isNotNull)) ∧
    (relation ∈ tokens delimitedText ∧ '>' ∈ relation.slice.toList ∧
      ∃ r : Relation, relation.kind = .relation r ∧ relation.slice = r.symbol) ∧
    literal ∈ tokens delimitedText ∧ '\'' ∈ literal.slice.toList ∧
      literal.kind ∈ [.singleQuoted, .doubleQuoted, .comment, .blockComment] := by
  intro test relation literal
  have htest : test ∈ tokens delimitedText := by decide +kernel
  have hrelation : relation ∈ tokens delimitedText := by decide +kernel
  have hliteral : literal ∈ tokens delimitedText := by decide +kernel
  have hblank : ' ' ∈ test.slice.toList := by decide +kernel
  have hgreater : '>' ∈ relation.slice.toList := by decide +kernel
  have hquote : '\'' ∈ literal.slice.toList := by decide +kernel
  refine ⟨⟨htest, hblank, ?_⟩, ⟨hrelation, hgreater, ?_⟩, hliteral, hquote, ?_⟩
  · exact ((tokens_delimiters htest).1 (by decide)).2.2 ' ' hblank (by decide)
  · exact ((tokens_delimiters hrelation).1 (by decide)).2.1 '>' hgreater (by decide)
  · exact (tokens_delimiters hliteral).2 '\'' hquote (by decide)

end Lexer

end PipeQuery
