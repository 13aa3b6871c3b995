import PipeQuery.Proofs.Token.Lexeme

/-!
The stages of the lexer that cut, on the lexemes of expressions.
-/
namespace PipeQuery

namespace Quoted

/-- A literal ends at the first quote without a backslash. -/
theorem tailLength_escape {value : List Char} (h : '\\' ∉ value) (rest : List Char) :
    tailLength '\'' (value.flatMap Expr.escapeQuote ++ '\'' :: rest) =
      (value.flatMap Expr.escapeQuote).length + 1 := by
  induction value with
  | nil => simp [tailLength]
  | cons c value ih =>
    have hc : c ≠ '\\' := fun heq => h (by simp [heq])
    have hvalue : '\\' ∉ value := fun hmem => h (List.mem_cons_of_mem c hmem)
    rw [List.flatMap_cons, List.append_assoc, List.length_append, Nat.add_assoc, ← ih hvalue,
      Expr.escapeQuote]
    split
    next =>
      simp only [List.cons_append, List.nil_append, tailLength, List.length_cons, List.length_nil]
    next hq =>
      simp only [List.cons_append, List.nil_append, List.length_cons, List.length_nil]
      rw [tailLength.eq_4 _ _ _ (by grind) (by grind), if_neg hq]

end Quoted

section
open Piece Rule
variable {ps : List Piece}

theorem Separate.kind_ne_unknown (h : Separate none ps) : ∀ p ∈ ps, p.kind ≠ .unknown :=
  fun _ hp => (h.lexeme hp).kind_ne_unknown

private theorem Separate.of_isRun {known : List TokenKind} {p : Piece} {rest back : List Piece}
    (h : Separate none ps) (hrun : IsRun known ps (p :: rest) back) :
    IsLexeme p ∧ p.kind ∉ known ∧ p.kind.endsBefore (first none (rest ++ back)) ∧
      ∀ q ∈ rest, IsLexeme q := by
  have hp := hrun.unknown p List.mem_cons_self
  obtain ⟨front, rfl⟩ := hrun.part
  rw [List.append_assoc] at h
  obtain ⟨hlex, hends, hrest⟩ := h.of_append
  exact ⟨hlex, hp, hends, fun q hq => hrest.lexeme (List.mem_append_left back hq)⟩

namespace Literal

theorem quotesAndComments_leave {c : Char} {cs : List Char} (hd : c ≠ '"') (hs : c ≠ '\'')
    (hc : c = '/' → cs.head? ≠ some '/' ∧ cs.head? ≠ some '*') (before : List Char) :
    quotesAndComments before (c :: cs) = .leave 0 := by
  unfold quotesAndComments
  split <;> simp_all

private theorem passes_name {name rest : List Char} (hne : name ≠ []) (hd : '"' ∉ name)
    (hs : '\'' ∉ name) (hc : ¬['/', '/'] <:+: name) (hb : ¬['/', '*'] <:+: name) :
    quotesAndComments.Passes name ('\x7d' :: rest) := by
  refine passes_of_leave_all hne ?_
  rintro front c back rfl before
  refine quotesAndComments_leave ?_ ?_ ?_ before
  · rintro rfl
    exact hd (by simp)
  · rintro rfl
    exact hs (by simp)
  · rintro rfl
    cases back with
    | nil => exact ⟨by simp, by simp⟩
    | cons d back =>
      constructor
      · rintro ⟨⟩
        exact hc ⟨front, back, by simp⟩
      · rintro ⟨⟩
        exact hb ⟨front, back, by simp⟩

private theorem passes_param {name rest : List Char} (hd : '"' ∉ name) (hs : '\'' ∉ name)
    (hc : ¬['/', '/'] <:+: name) (hb : ¬['/', '*'] <:+: name) :
    quotesAndComments.Passes ('$' :: '\x7b' :: (name ++ ['\x7d'])) rest := by
  have hopen : quotesAndComments.Passes ['$', '\x7b'] (name ++ ['\x7d'] ++ rest) :=
    passes_of_forall (by simp) (by simp [quotesAndComments])
  have hclose : quotesAndComments.Passes ['\x7d'] rest :=
    passes_of_forall (by simp) (by simp [quotesAndComments])
  cases name with
  | nil => exact hopen.append hclose
  | cons c cs =>
    have hname : quotesAndComments.Passes (c :: cs) ('\x7d' :: rest) :=
      passes_name (List.cons_ne_nil c cs) hd hs hc hb
    exact hopen.append (hname.append hclose)

end Literal

private theorem IsLexeme.eq_divide {p : Piece} (h : IsLexeme p)
    (hk : p.kind ∉ [.param, .singleQuoted]) (hc : '/' ∈ p.chars) : p = ⟨.arith .divide, ['/']⟩ := by
  cases h with
  | functionName start rest =>
    rcases List.mem_cons.mp hc with rfl | hc
    · exact absurd start (by decide)
    · exact absurd (rest _ hc) (by decide)
  | arith op => cases op <;> first | rfl | exact absurd hc (by decide)
  | relation r => cases r <;> exact absurd hc (by decide)
  | number shape => exact absurd ((Shape.chars_of_isNumber shape).2 _ hc) (by decide)
  | _ => simp_all

private theorem IsLexeme.no_comment {p : Piece} (h : IsLexeme p) (hk : p.kind.isBare = false)
    (rest : List Char) :
    (p.chars ++ rest).head? ≠ some '/' ∧ (p.chars ++ rest).head? ≠ some '*' := by
  cases h with
  | functionName start =>
    constructor
    · rintro ⟨⟩
      exact absurd start (by decide)
    · rintro ⟨⟩
      exact absurd start (by decide)
  | arith op => cases hk
  | relation r => cases hk
  | number shape => cases hk
  | _ => exact ⟨by simp, by simp⟩

private theorem refine_quotes (h : Separate none ps) :
    refine Literal.quotesAndComments.split (blur [] ps) = blur [.singleQuoted] ps := by
  refine refine_split (by simp) h.kind_ne_unknown ?_
  intro p rest back hrun
  obtain ⟨hp, -, hends, hrest⟩ := h.of_isRun hrun
  by_cases hplain : p.kind ∉ [.param, .singleQuoted]
  · rw [if_neg (by simp_all)]
    refine passes_of_leave_all hp.chars_ne_nil ?_
    intro front c back' heq before
    have hc : c ∈ p.chars := by simp [heq]
    refine Literal.quotesAndComments_leave ?_ ?_ ?_ before
    · rintro rfl
      exact absurd (hp.plainChars hplain _ hc) (by decide)
    · rintro rfl
      exact absurd (hp.plainChars hplain _ hc) (by decide)
    · rintro rfl
      cases hp.eq_divide hplain hc
      obtain ⟨rfl, rfl⟩ : front = [] ∧ back' = [] := by
        cases front <;> simp_all
      cases rest with
      | nil => exact ⟨nofun, nofun⟩
      | cons q rest =>
        have hbare : q.kind.isBare = false := by simpa [first, TokenKind.endsBefore] using hends
        have hnext := (hrest q List.mem_cons_self).no_comment hbare (spell rest)
        rwa [← spell_cons] at hnext
  · cases hp with
    | quoted backslash =>
      rw [if_pos (by simp)]
      refine ⟨List.cons_ne_nil _ _, fun before => ?_⟩
      simp [Literal.quotesAndComments, Quoted.tailLength_escape backslash]
    | param brace double single comment block =>
      rw [if_neg (by simp)]
      exact Literal.passes_param double single comment block
    | _ => simp at hplain

private theorem refine_params (h : Separate none ps) :
    refine Literal.params.split (blur [.singleQuoted] ps) = blur [.param, .singleQuoted] ps := by
  refine refine_split (by simp) h.kind_ne_unknown ?_
  intro p rest back hrun
  obtain ⟨hp, hknown, -⟩ := h.of_isRun hrun
  by_cases hplain : p.kind ∉ [.param, .singleQuoted]
  · rw [if_neg hplain]
    refine passes_of_forall hp.chars_ne_nil ?_
    intro c hc before back'
    have hdollar : c ≠ '$' := by
      rintro rfl
      exact absurd (hp.plainChars hplain _ hc) (by decide)
    simp [Literal.params, hdollar]
  · cases hp with
    | quoted => simp at hknown
    | @param name brace =>
      rw [if_pos (by simp)]
      refine ⟨List.cons_ne_nil _ _, fun before => ?_⟩
      have hname : (name ++ '\x7d' :: spell rest).takeWhile (· != '\x7d') = name := by
        rw [List.takeWhile_append_of_pos (by grind)]
        simp
      simp [Literal.params, hname]
      omega
    | _ => simp at hplain

private theorem refine_commands (h : Separate none ps) :
    refine Words.commands.split (blur [.param, .singleQuoted] ps) =
      blur [.param, .singleQuoted] ps := by
  refine refine_split_self h.kind_ne_unknown ?_
  intro run back hne hrun
  have hplain : ∀ c ∈ spell run, Text.isPlain c := by
    intro c hc
    obtain ⟨p, hp, hc⟩ := List.mem_flatMap.mp hc
    obtain ⟨front, heq⟩ := hrun.part
    exact (h.lexeme (by simp [heq, hp])).plainChars (hrun.unknown p hp) c hc
  have hspell : spell run ≠ [] := by
    cases run with
    | nil => exact absurd rfl hne
    | cons p run =>
      obtain ⟨hp, -⟩ := h.of_isRun hrun
      simp [spell_cons, hp.chars_ne_nil]
  refine split_of_leave_all hspell ?_
  intro front c back' heq
  -- A command needs a pipe before it.
  have hpipe : ((front.reverse.dropWhile Text.isBlank).head? == some '|') = false := by
    rw [beq_eq_false_iff_ne]
    intro hhead
    have hmem := List.mem_of_mem_head? hhead
    have hfront : '|' ∈ front := by
      simpa using (List.dropWhile_suffix Text.isBlank).subset hmem
    exact absurd (hplain '|' (by simp [heq, hfront])) (by decide)
  simp [Words.commands, hpipe]

theorem takeWhile_append_eq {q : Char → Bool} {word stop : List Char} (hword : ∀ c ∈ word, q c)
    (hstop : ∀ c, stop.head? = some c → q c = false) : (word ++ stop).takeWhile q = word := by
  rw [List.takeWhile_append_of_pos hword]
  cases stop with
  | nil => simp
  | cons c stop => simp [hstop c rfl]

/-- At a letter the rule for function names leaves the whole identifier. -/
theorem functionNames_leave (c : Char) {cs rest : List Char} (hopen : '(' ∉ cs)
    (hrest : ∀ c, rest.head? = some c → Text.isIdentifierRest c = false ∧ c ≠ '(') :
    ∃ word tail, cs = word ++ tail ∧
      ∀ before, Words.functionNames before (c :: word ++ (tail ++ rest)) = .leave word.length := by
  by_cases hc : Text.isIdentifierStart c
  · refine ⟨cs.takeWhile Text.isIdentifierRest, cs.dropWhile Text.isIdentifierRest,
      List.takeWhile_append_dropWhile.symm, ?_⟩
    have hstop : ∀ x, (cs.dropWhile Text.isIdentifierRest ++ rest).head? = some x →
        Text.isIdentifierRest x = false ∧ x ≠ '(' := by
      intro x hx
      cases htail : cs.dropWhile Text.isIdentifierRest with
      | nil => exact hrest x (by simpa [htail] using hx)
      | cons d tail =>
        have hd : cs.dropWhile Text.isIdentifierRest ≠ [] := by simp [htail]
        have hnot := List.head_dropWhile_not Text.isIdentifierRest hd
        have hmem : d ∈ cs := (List.dropWhile_suffix Text.isIdentifierRest).subset (by simp [htail])
        obtain rfl : d = x := by simpa [htail] using hx
        refine ⟨by simpa [htail] using hnot, ?_⟩
        rintro rfl
        exact hopen hmem
    have hword := takeWhile_append_eq (List.all_eq_true.mp (List.all_takeWhile (l := cs)))
      fun x hx => (hstop x hx).1
    have hhead : ((cs.dropWhile Text.isIdentifierRest ++ rest).head? == some '(') = false := by
      rw [beq_eq_false_iff_ne]
      intro hx
      exact (hstop _ hx).2 rfl
    intro before
    simp only [List.cons_append, Words.functionNames, hc, hword, List.drop_left, hhead, if_true,
      Bool.false_and, Bool.false_eq_true, if_false]
  · exact ⟨[], cs, rfl, fun before => by simp [Words.functionNames, hc]⟩

theorem passes_functionNames {cs rest : List Char} (hne : cs ≠ []) (hopen : '(' ∉ cs)
    (hrest : ∀ c, rest.head? = some c → Text.isIdentifierRest c = false ∧ c ≠ '(') :
    Words.functionNames.Passes cs rest := by
  induction hn : cs.length using Nat.strongRecOn generalizing cs with
  | ind n ih =>
    obtain ⟨c, cs, rfl⟩ := List.exists_cons_of_ne_nil hne
    have hnot : '(' ∉ cs := fun hmem => hopen (List.mem_cons_of_mem c hmem)
    obtain ⟨word, tail, rfl, hleave⟩ := functionNames_leave c hnot hrest
    have hblock := passes_of_leave hleave
    cases tail with
    | nil => simpa using hblock
    | cons d tail =>
      have hlt : (d :: tail).length < n := by
        simp only [← hn, List.length_cons, List.length_append]
        omega
      have htail := ih _ hlt (List.cons_ne_nil d tail) (by grind) rfl
      exact hblock.append htail

theorem passes_of_not_isIdentifierStart {cs rest : List Char} (hne : cs ≠ [])
    (h : cs.all fun c => !Text.isIdentifierStart c) : Words.functionNames.Passes cs rest := by
  refine passes_of_forall hne fun c hc before back => ?_
  have hc : Text.isIdentifierStart c = false := by simpa using List.all_eq_true.mp h c hc
  simp [Words.functionNames, hc]

private theorem refine_functionNames (h : Separate none ps) :
    refine Words.functionNames.split (blur [.param, .singleQuoted] ps) =
      blur [.functionName, .param, .singleQuoted] ps := by
  refine refine_split (by simp) h.kind_ne_unknown ?_
  intro p rest back hrun
  obtain ⟨hp, hknown, hends, hrest⟩ := h.of_isRun hrun
  have hne := hp.chars_ne_nil
  cases hp with
  | @functionName c cs start identifier keyword =>
    rw [if_pos (by simp)]
    refine ⟨hne, fun before => ?_⟩
    cases rest with
    | nil =>
      -- What follows is not known yet, so the run goes on.
      cases back with
      | nil => cases hends
      | cons q back =>
        have hq := hrun.maximal q rfl
        have hopen : q.kind = .openBracket := by simpa [first, TokenKind.endsBefore] using hends
        simp [hopen] at hq
    | cons q rest =>
      have hq := hrest q List.mem_cons_self
      have hopen : q.kind = .openBracket := by simpa [first, TokenKind.endsBefore] using hends
      cases hq <;> cases hopen
      have hword : (cs ++ '(' :: spell rest).takeWhile Text.isIdentifierRest = cs :=
        takeWhile_append_eq identifier (by rintro _ ⟨⟩; decide)
      simp [Words.functionNames, spell_cons, start, hword, keyword]
  | @number cs shape =>
    rw [if_neg (by simp)]
    refine passes_functionNames hne ?_ ?_
    · intro hopen
      exact absurd ((Shape.chars_of_isNumber shape).2 _ hopen) (by decide)
    · intro c hc
      cases rest with
      | nil => cases hc
      | cons q rest =>
        have hq := hrest q List.mem_cons_self
        rw [spell_cons] at hc
        cases hq with
        | blank =>
          cases hc
          decide
        | comma =>
          cases hc
          decide
        | closeBracket =>
          cases hc
          decide
        | _ => simp [first, TokenKind.endsBefore] at hends
  | quoted => simp at hknown
  | param => simp at hknown
  | arith op =>
    rw [if_neg (by simp)]
    exact passes_of_not_isIdentifierStart hne (by cases op <;> decide)
  | relation r =>
    rw [if_neg (by simp)]
    exact passes_of_not_isIdentifierStart hne (by cases r <;> decide)
  | _ =>
    rw [if_neg (by simp)]
    exact passes_of_not_isIdentifierStart hne (by decide)

/-- A stage that finds no lexeme of expressions. -/
theorem refine_of_leave {rule : Rule} {known : List TokenKind} (h : Separate none ps)
    (hleave : ∀ p, IsLexeme p → p.kind ∉ known →
      ∀ c ∈ p.chars, ∀ before back, rule before (c :: back) = .leave 0) :
    refine rule.split (blur known ps) = blur known ps := by
  refine refine_split (List.Subset.refl known) h.kind_ne_unknown ?_
  intro p rest back hrun
  obtain ⟨hp, hknown, -⟩ := h.of_isRun hrun
  rw [if_neg hknown]
  exact passes_of_forall hp.chars_ne_nil (hleave p hp hknown)

/-- A stage for a lexeme of one character. -/
theorem refine_single {kind : TokenKind} {c : Char} {known : List TokenKind}
    (h : Separate none ps) (hsub : [.functionName, .param, .singleQuoted] ⊆ known)
    (hkind : kind.isBare = false) (hc : Text.isBare c = false)
    (hmark : ∀ p ∈ IsLexeme.marks, p.kind ∉ known →
      if p.kind = kind then p.chars = [c] else c ∉ p.chars) :
    refine (single kind (· == c)).split (blur known ps) = blur (kind :: known) ps := by
  refine refine_split (List.subset_cons_self kind known) h.kind_ne_unknown ?_
  intro p rest back hrun
  obtain ⟨hp, hknown, -⟩ := h.of_isRun hrun
  have hpass (hmem : c ∉ p.chars) : (single kind (· == c)).Passes p.chars (spell rest) := by
    refine passes_of_forall hp.chars_ne_nil ?_
    intro d hd before back'
    have hne : d ≠ c := by
      rintro rfl
      exact hmem hd
    simp [single, hne]
  rcases hp.isBare_or_mem_marks (fun hmem => hknown (hsub hmem)) with hbare | hmem
  · have hne : p.kind ≠ kind := by
      intro heq
      rw [heq, hkind] at hbare
      cases hbare
    rw [if_neg (by simp [hne, hknown])]
    refine hpass fun hmem => ?_
    rw [hp.bareChars hbare c hmem] at hc
    cases hc
  · have hp' := hmark p hmem hknown
    split at hp'
    next heq =>
      rw [if_pos (by simp [heq])]
      refine ⟨hp.chars_ne_nil, fun before => ?_⟩
      simp [hp', heq, single]
    next hne =>
      rw [if_neg (by simp [hne, hknown])]
      exact hpass hp'

private theorem refine_openBracket (h : Separate none ps) :
    refine (single .openBracket (· == '(')).split (blur [.functionName, .param, .singleQuoted] ps) =
      blur [.openBracket, .functionName, .param, .singleQuoted] ps :=
  refine_single h (by simp) rfl (by decide) (by decide)

private theorem refine_closeBracket (h : Separate none ps) :
    refine (single .closeBracket (· == ')')).split
        (blur [.openBracket, .functionName, .param, .singleQuoted] ps) =
      blur [.closeBracket, .openBracket, .functionName, .param, .singleQuoted] ps :=
  refine_single h (by simp) rfl (by decide) (by decide)

/-- What is left when brackets have been cut off, too. -/
theorem IsLexeme.bare_or_separator {p : Piece} (h : IsLexeme p)
    (hk : p.kind ∉ [.closeBracket, .openBracket, .functionName, .param, .singleQuoted]) :
    p.kind.isBare ∨ p = ⟨.whitespace, [' ']⟩ ∨ p = ⟨.comma, [',']⟩ := by
  rcases h.isBare_or_mem_marks (by simp_all) with hbare | hmem
  · exact .inl hbare
  · right
    simp only [marks, List.mem_cons, List.not_mem_nil, or_false] at hmem
    rcases hmem with rfl | rfl | rfl | rfl
    · simp at hk
    · simp at hk
    · exact .inl rfl
    · exact .inr rfl

theorem IsLexeme.ne_of_mem {p : Piece} (h : IsLexeme p)
    (hk : p.kind ∉ [.closeBracket, .openBracket, .functionName, .param, .singleQuoted]) {c d : Char}
    (hc : c ∈ p.chars) (hd : Text.isBare d = false ∧ d ≠ ' ' ∧ d ≠ ',') : c ≠ d := by
  rintro rfl
  rcases h.bare_or_separator hk with hbare | rfl | rfl
  · rw [h.bareChars hbare c hc] at hd
    cases hd.1
  · exact hd.2.1 (List.mem_singleton.mp hc)
  · exact hd.2.2 (List.mem_singleton.mp hc)

private theorem refine_phrase (kind : TokenKind) (word : String) (words : List String)
    (h : Separate none ps) :
    refine (Words.phrase kind ("is" :: word :: words)).split
        (blur [.closeBracket, .openBracket, .functionName, .param, .singleQuoted] ps) =
      blur [.closeBracket, .openBracket, .functionName, .param, .singleQuoted] ps := by
  refine refine_of_leave h ?_
  intro p hp hk c hc before back
  have hletter : Text.sameLetter 'i' c = false := by
    rw [← Bool.not_eq_true]
    intro hsame
    rcases Text.eq_of_sameLetter hsame with heq | heq
    · exact hp.ne_of_mem hk hc (by decide) heq
    · exact hp.ne_of_mem hk hc (by decide) heq
  have hphrase : Words.afterPhrase? ("is" :: word :: words) (c :: back) = none := by
    simp [Words.afterPhrase?, Words.afterWord?, hletter]
  simp [Words.phrase, hphrase]

private theorem refine_blanks (h : Separate none ps) :
    refine Words.blanks.split
        (blur [.closeBracket, .openBracket, .functionName, .param, .singleQuoted] ps) =
      blur [.whitespace, .closeBracket, .openBracket, .functionName, .param, .singleQuoted] ps := by
  refine refine_split (by simp) h.kind_ne_unknown ?_
  intro p rest back hrun
  obtain ⟨hp, hknown, hends, hrest⟩ := h.of_isRun hrun
  have hblank {q : Piece} (hq : IsLexeme q) (hw : q.kind ≠ .whitespace)
      (hk : q.kind ∉ [.closeBracket, .openBracket, .functionName, .param, .singleQuoted]) :
      ∀ c ∈ q.chars, Text.isBlank c = false := by
    intro c hc
    rcases hq.bare_or_separator hk with hbare | rfl | rfl
    · exact Text.not_isBlank_of_isBare (hq.bareChars hbare c hc)
    · exact absurd rfl hw
    · cases List.mem_singleton.mp hc
      decide
  by_cases hw : p.kind = .whitespace
  · rw [if_pos (by simp [hw])]
    refine ⟨hp.chars_ne_nil, fun before => ?_⟩
    cases hp <;> cases hw
    have hnext : (spell rest).takeWhile Text.isBlank = [] := by
      cases rest with
      | nil => rfl
      | cons q rest =>
        have hq := hrest q List.mem_cons_self
        have hqw : q.kind ≠ .whitespace := by simpa [first, TokenKind.endsBefore] using hends
        have hqk := hrun.unknown q (by simp)
        obtain ⟨c, cs, heq⟩ := List.exists_cons_of_ne_nil hq.chars_ne_nil
        have hc := hblank hq hqw hqk c (by simp [heq])
        simp [spell_cons, heq, hc]
    have hspace : Text.isBlank ' ' := by decide
    simp [Words.blanks, hspace, hnext]
  · rw [if_neg (by simp_all)]
    refine passes_of_forall hp.chars_ne_nil ?_
    intro c hc before back'
    simp [Words.blanks, hblank hp hw hknown c hc]

private theorem refine_pipe (h : Separate none ps) :
    refine (single .pipe (· == '|')).split
        (blur [.whitespace, .closeBracket, .openBracket, .functionName, .param, .singleQuoted] ps) =
      blur [.whitespace, .closeBracket, .openBracket, .functionName, .param, .singleQuoted] ps := by
  refine refine_of_leave h ?_
  intro p hp hk c hc before back
  have hne : c ≠ '|' := hp.ne_of_mem (fun hmem => hk (List.mem_cons_of_mem _ hmem)) hc (by decide)
  simp [single, hne]

private theorem refine_comma (h : Separate none ps) :
    refine (single .comma (· == ',')).split
        (blur [.whitespace, .closeBracket, .openBracket, .functionName, .param, .singleQuoted] ps) =
      blur IsLexeme.cutKinds ps :=
  refine_single h (by simp) rfl (by decide) (by decide)

/-- The stages that cut leave nothing unclassified but operators and numbers. -/
theorem cutting_spell (h : Separate none ps) :
    Lexer.cutting.foldl (fun qs rule => refine rule.split qs) (blur [] ps) =
      blur IsLexeme.cutKinds ps := by
  simp only [Lexer.cutting, List.foldl_cons, List.foldl_nil, refine_quotes h, refine_params h,
    refine_commands h, refine_functionNames h, refine_openBracket h, refine_closeBracket h,
    refine_phrase _ _ _ h, refine_blanks h, refine_pipe h, refine_comma h]

end

end PipeQuery
