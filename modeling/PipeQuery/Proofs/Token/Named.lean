import PipeQuery.Proofs.Token.Word

/-!
Names in queries: words, and literals in quotes. The keyword `from` and a name are cut off from
whatever follows them after a blank.
-/
namespace PipeQuery

open Piece

namespace Quoted

/-- The body of a literal, and the characters that it stands for. A backslash hides the character
after it; without one neither a quote nor a backslash stands in a body. -/
inductive Spells (quote : Char) : List Char → List Char → Prop where
  | nil : Spells quote [] []
  | escaped {c : Char} {body value : List Char} (rest : Spells quote body value) :
    Spells quote ('\\' :: c :: body) (c :: value)
  | plain {c : Char} {body value : List Char} (notQuote : c ≠ quote) (notEscape : c ≠ '\\')
    (rest : Spells quote body value) : Spells quote (c :: body) (c :: value)

namespace Spells
variable {quote : Char} {body value : List Char}

private theorem tailLength_eq (h : Spells quote body value) (hquote : quote ≠ '\\')
    (rest : List Char) : tailLength quote (body ++ quote :: rest) = body.length + 1 := by
  induction h with
  | nil => rw [List.nil_append, tailLength.eq_4 _ _ _ (by grind) (by grind), if_pos rfl]; rfl
  | escaped _ ih =>
    rw [List.cons_append, List.cons_append, tailLength, ih, List.length_cons, List.length_cons]
    omega
  | plain notQuote notEscape _ ih =>
    rw [List.cons_append, tailLength.eq_4 _ _ _ (by grind) (by grind), if_neg notQuote, ih,
      List.length_cons]
    omega

theorem unescape_eq (h : Spells quote body value) (hquote : quote ≠ '\\') :
    unescape (quote :: (body ++ [quote])) = value := by
  rw [unescape]
  induction h with
  | nil => rw [List.nil_append, unescapeBody.eq_4 _ _ _ (by grind) (by grind), if_pos rfl]
  | escaped _ ih => rw [List.cons_append, List.cons_append, unescapeBody, ih]
  | plain notQuote notEscape _ ih =>
    rw [List.cons_append, unescapeBody.eq_4 _ _ _ (by grind) (by grind), if_neg notQuote, ih]

end Spells

end Quoted

/-- A name as it is written, with the kind of its token and the characters that it stands for. A
word that can be taken together with the text after it is no name: no parameter starts in it, and
it starts no test for null. -/
inductive Spelling : List Char → TokenKind → List Char → Prop where
  | word {cs : List Char} (word : Lexer.pieces cs = [⟨.word, cs⟩])
    (param : ¬['$', '\x7b'] <:+: cs) (test : Words.afterWord? "is".toList cs ≠ some []) :
    Spelling cs .word cs
  | single {body value : List Char} (spells : Quoted.Spells '\'' body value) :
    Spelling ('\'' :: (body ++ ['\''])) .singleQuoted value
  | double {body value : List Char} (spells : Quoted.Spells '"' body value) :
    Spelling ('"' :: (body ++ ['"'])) .doubleQuoted value

namespace Lexer

theorem plain_nil : Words.Plain [] where
  chars := by simp
  comment := by simp
  block := by simp
  param := by simp
  test := by decide

theorem plain_of_all {word : List Char}
    (h : word.all fun c => !(Text.isBlank c || ['"', '\'', '(', ')', '|', '/', '$'].contains c))
    (test : Words.afterWord? "is".toList word ≠ some []) : Words.Plain word := by
  have hchars (c : Char) (hc : c ∈ word) :
      Text.isBlank c = false ∧ c ∉ ['"', '\'', '(', ')', '|', '/', '$'] := by
    have hall := List.all_eq_true.mp h c hc
    simpa using hall
  have hstart (c d : Char) (hc : c ∈ ['/', '$']) : ¬[c, d] <:+: word := by
    intro hinside
    refine (hchars c (hinside.subset List.mem_cons_self)).2 ?_
    simp only [List.mem_cons, List.not_mem_nil, or_false] at hc
    rcases hc with rfl | rfl <;> simp
  refine ⟨?_, hstart _ _ (by simp), hstart _ _ (by simp), hstart _ _ (by simp), test⟩
  intro c hc
  obtain ⟨hblank, hnot⟩ := hchars c hc
  exact ⟨hblank, fun hmem => hnot (List.mem_append_left ['/', '$'] hmem)⟩

private theorem plain_from : Words.Plain "from".toList := plain_of_all (by decide) (by decide)

theorem firstCut_eq (cs : List Char) :
    firstCut cs = early.tail.foldl (fun ps rule => refine rule.split ps)
      (Literal.quotesAndComments.split cs) := by
  have hearly : early = Literal.quotesAndComments :: early.tail := rfl
  rw [firstCut, hearly, List.foldl_cons, start]
  split
  next hempty =>
    rw [List.isEmpty_iff.mp hempty]
    rfl
  next =>
    rw [refine_unknown, refine, List.flatMap_nil, List.append_nil]
    rfl

theorem foldl_refine_known {p : Piece} (hp : p.kind ≠ .unknown) (rules : List Rule)
    (ps : List Piece) : rules.foldl (fun ps rule => refine rule.split ps) (p :: ps) =
      p :: rules.foldl (fun ps rule => refine rule.split ps) ps := by
  induction rules generalizing ps with
  | nil => rfl
  | cons rule rules ih => rw [List.foldl_cons, List.foldl_cons, refine_known hp, ih]

/-- A literal and a blank after it are cut off by the first stages. -/
theorem firstCut_literal {p : Piece} (hp : p.kind ≠ .unknown)
    (hmark : ∀ rest, Literal.quotesAndComments.Marks p rest) (rest : List Char) :
    firstCut (p.chars ++ ' ' :: rest) = p :: prepend [' '] (firstCut rest) := by
  have hskips := skips_of_mem_early plain_nil
  have hforgets := Words.Plain.forgets_of_eq Words.Plain.quotesAndComments_before p.chars
  have hblank : Literal.quotesAndComments.split (' ' :: rest) =
      prepend [' '] (Literal.quotesAndComments.split rest) :=
    hskips _ (by simp [early, cutting]) rest
  have hnonempty := (Literal.quotesAndComments.covers_split rest).nonempty
  have htail : ∀ rule ∈ early.tail, rule.Skips [' '] :=
    fun rule hrule => hskips rule (List.mem_of_mem_tail hrule)
  rw [firstCut_eq, (hmark _).split_eq hforgets, hblank, foldl_refine_known hp,
    foldl_refine_prepend htail hnonempty, ← firstCut_eq]

/-- A name before a blank: the piece that it is, once blanks are cut off. -/
structure CutOff (cs : List Char) (p : Piece) : Prop where
  leading : ∀ rest, leading (firstCut (cs ++ ' ' :: rest)) = []
  dropLeading : ∀ rest, dropLeading (firstCut (cs ++ ' ' :: rest)) = firstCut (cs ++ ' ' :: rest)
  blanks : ∀ rest, refine Words.blanks.split (firstCut (cs ++ ' ' :: rest)) =
    p :: refine Words.blanks.split (prepend [' '] (firstCut rest))
  polished : polish [p] = [p]

private theorem cutOff_word {cs : List Char} (h : pieces cs = [⟨.word, cs⟩])
    (hplain : Words.Plain cs) : CutOff cs ⟨.unknown, cs⟩ := by
  obtain ⟨-, -, hlate⟩ := idle_of_word h
  have hne : cs ≠ [] := (covers_pieces cs).nonempty ⟨.word, cs⟩ (by simp [h])
  have hchars : ∀ c ∈ cs, Text.isBlank c = false := fun c hc => (hplain.chars c hc).1
  have hcut (rest : List Char) : firstCut (cs ++ ' ' :: rest) =
      prepend cs (prepend [' '] (firstCut rest)) := by
    have hwords := firstCut_words (by simp) (skips_of_mem_early hplain) rest
    rwa [List.append_assoc, List.singleton_append, ← prepend_prepend] at hwords
  refine ⟨?_, ?_, ?_, polish_of_idle hlate⟩
  · intro rest
    rw [hcut]
    exact (leading_word hne hchars _).1
  · intro rest
    rw [hcut]
    exact (leading_word hne hchars _).2
  · intro rest
    rw [hcut]
    exact refine_blanks_word hne hchars _

private theorem cutOff_literal {p : Piece} (hp : p.kind ≠ .unknown)
    (hmark : ∀ rest, Literal.quotesAndComments.Marks p rest) : CutOff p.chars p := by
  have hcut := firstCut_literal hp hmark
  refine ⟨?_, ?_, ?_, polish_known (by simpa using hp)⟩
  · intro rest
    rw [hcut, leading, if_neg hp]
  · intro rest
    rw [hcut, dropLeading, if_neg hp]
  · intro rest
    rw [hcut, refine_known hp]

end Lexer

namespace Spelling
open Lexer
variable {cs value : List Char} {kind : TokenKind}

theorem isString (h : Spelling cs kind value) : kind.isString := by
  cases h <;> rfl

theorem unescaped_eq (h : Spelling cs kind value) {t : Token} (hkind : t.kind = kind)
    (hslice : t.slice = String.ofList cs) : t.unescaped = String.ofList value := by
  rw [Token.unescaped, hslice, hkind, String.toList_ofList]
  cases h with
  | word => rfl
  | single spells => exact congrArg String.ofList (spells.unescape_eq (by decide))
  | double spells => exact congrArg String.ofList (spells.unescape_eq (by decide))

theorem marks (quote : Char) (kind : TokenKind) {body value : List Char}
    (h : Quoted.Spells quote body value) (hquote : quote ≠ '\\')
    (hrule : ∀ before rest, Literal.quotesAndComments before (quote :: rest) =
      .mark kind (Quoted.tailLength quote rest)) (rest : List Char) :
    Literal.quotesAndComments.Marks ⟨kind, quote :: (body ++ [quote])⟩ rest := by
  refine ⟨by simp, fun before => ?_⟩
  have hlength := h.tailLength_eq hquote rest
  simp only [List.cons_append, List.append_assoc, List.nil_append, hrule, hlength]
  simp

/-- A name is cut off as a piece that is of its kind in the end. -/
theorem exists_cutOff (h : Spelling cs kind value) :
    ∃ p, CutOff cs p ∧ classify (fun _ => some .word) [p] = [⟨kind, cs⟩] ∧
      p.kind ∉ [.between, .logic .and, .pipe, .closeBracket] := by
  cases h with
  | word word param test =>
    exact ⟨⟨.unknown, cs⟩, cutOff_word word (plain_of_word word param test), rfl, by simp⟩
  | single spells =>
    have hmark := marks '\'' .singleQuoted spells (by decide) (fun _ _ => rfl)
    exact ⟨_, cutOff_literal (by simp) hmark, rfl, by simp⟩
  | double spells =>
    have hmark := marks '"' .doubleQuoted spells (by decide) (fun _ _ => rfl)
    exact ⟨_, cutOff_literal (by simp) hmark, rfl, by simp⟩

end Spelling

namespace Lexer

/-- The pieces of a text that starts with a keyword and a name are these and those of the rest, up
to blanks at its start. -/
theorem pieces_keyword {word cs value : List Char} {kind keyword : TokenKind} (hne : word ≠ [])
    (hplain : Words.Plain word) (hpolish : polish [⟨.unknown, word⟩] = [⟨keyword, word⟩])
    (hkeyword : keyword ∉ [.unknown, .between, .logic .and, .pipe, .closeBracket])
    (h : Spelling cs kind value) (rest : List Char) :
    ∃ blank blanks ps, (∀ p ∈ blanks, p.kind = .whitespace) ∧ pieces rest = blanks ++ ps ∧
      pieces (word ++ ' ' :: (cs ++ ' ' :: rest)) =
        [⟨keyword, word⟩, ⟨.whitespace, [' ']⟩, ⟨kind, cs⟩, ⟨.whitespace, blank⟩] ++ ps := by
  obtain ⟨p, hcut, hkind, hinert⟩ := h.exists_cutOff
  obtain ⟨blanks, hblanks, hrest⟩ := refine_blanks_leading (firstCut rest)
  have hwords := firstCut_words (by simp) (skips_of_mem_early hplain) (cs ++ ' ' :: rest)
  rw [List.append_assoc, List.singleton_append, ← prepend_prepend] at hwords
  have hchars : ∀ c ∈ word, Text.isBlank c = false := fun c hc => (hplain.chars c hc).1
  have hfront : refine Words.blanks.split (firstCut (word ++ ' ' :: (cs ++ ' ' :: rest))) =
      [⟨.unknown, word⟩, ⟨.whitespace, [' ']⟩, p,
        ⟨.whitespace, ' ' :: leading (firstCut rest)⟩] ++
        refine Words.blanks.split (dropLeading (firstCut rest)) := by
    rw [hwords, refine_blanks_word hne hchars, refine_blanks_space, hcut.leading,
      hcut.dropLeading, hcut.blanks, refine_blanks_space]
    simp only [List.cons_append, List.nil_append]
  have hblank (cs : List Char) : polish [⟨.whitespace, cs⟩] = [⟨.whitespace, cs⟩] :=
    polish_known (by simp)
  have hpolished : polish [⟨.unknown, word⟩, ⟨.whitespace, [' ']⟩, p,
      ⟨.whitespace, ' ' :: leading (firstCut rest)⟩] =
      [⟨keyword, word⟩, ⟨.whitespace, [' ']⟩, p,
        ⟨.whitespace, ' ' :: leading (firstCut rest)⟩] := by
    rw [polish_cons, hpolish, polish_cons, hblank, polish_cons, hcut.polished, hblank]
    rfl
  simp only [List.mem_cons, not_or] at hkeyword
  refine ⟨' ' :: leading (firstCut rest), blanks,
    finish (refine Words.blanks.split (dropLeading (firstCut rest))), hblanks, ?_, ?_⟩
  · rw [pieces_eq, hrest, finish_blanks hblanks]
  · have hinerts : ∀ q ∈ [⟨keyword, word⟩, ⟨.whitespace, [' ']⟩, p,
        ⟨.whitespace, ' ' :: leading (firstCut rest)⟩],
        q.kind ∉ [.between, .logic .and, .pipe, .closeBracket] := by
      simp_all
    rw [pieces_eq, hfront, finish_append hpolished hinerts]
    simp_all [classify]

/-- So do the pieces of a query that starts with `from` and a name. -/
theorem pieces_source {cs value : List Char} {kind : TokenKind} (h : Spelling cs kind value)
    (rest : List Char) :
    ∃ blank blanks ps, (∀ p ∈ blanks, p.kind = .whitespace) ∧ pieces rest = blanks ++ ps ∧
      pieces ("from".toList ++ ' ' :: (cs ++ ' ' :: rest)) =
        [⟨.clause .source, "from".toList⟩, ⟨.whitespace, [' ']⟩, ⟨kind, cs⟩,
          ⟨.whitespace, blank⟩] ++ ps :=
  pieces_keyword (by decide) plain_from (by decide +kernel) (by decide) h rest

end Lexer

end PipeQuery
