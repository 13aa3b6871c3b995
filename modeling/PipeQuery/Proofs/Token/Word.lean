import PipeQuery.Proofs.Token.Suffix

/-!
Texts that are one word. No stage of the lexer has found anything in such a text, since what one
stage finds no later stage takes back.
-/
namespace PipeQuery

open Piece

namespace Piece

private theorem mem_prepend_iff {p : Piece} (hp : p.kind ≠ .unknown) {cs : List Char}
    {ps : List Piece} : p ∈ prepend cs ps ↔ p ∈ ps := by
  have hne (chars : List Char) : p ≠ ⟨.unknown, chars⟩ := by
    rintro rfl
    exact hp rfl
  cases ps with
  | nil => simp [prepend, hne]
  | cons q ps =>
    obtain ⟨kind, chars⟩ := q
    by_cases hkind : kind = .unknown
    · subst hkind
      simp [prepend, hne]
    · rw [prepend_cons hkind, List.mem_cons, or_iff_right (hne cs)]

end Piece

namespace Rule
variable {rule : Rule}

/-- Scanning finds only kinds that the rule marks. -/
theorem exists_mark_of_mem_scan {skip : Nat} {before cs : List Char} {p : Piece}
    (hp : p ∈ rule.scan skip before cs) (hkind : p.kind ≠ .unknown) :
    ∃ before cs more, rule before cs = .mark p.kind more := by
  fun_induction scan rule skip before cs with
  | case1 => cases hp
  | case2 before skip c cs ih => exact ih hp
  | case3 before c cs more hrule ih => exact ih ((mem_prepend_iff hkind).mp hp)
  | case4 before c cs kind more hrule ih =>
    rcases List.mem_cons.mp hp with rfl | hp
    · exact ⟨_, _, _, hrule⟩
    · exact ih hp

/-- A rule that goes from one character to the next, unless it marks a lexeme. -/
def Steps (rule : Rule) : Prop :=
  ∀ before cs, rule before cs = .leave 0 ∨
    ∃ kind more, rule before cs = .mark kind more ∧ kind ≠ .unknown

/-- Where nothing is found, such a rule has left every character. -/
theorem Steps.leave_of_split (h : rule.Steps) {cs : List Char}
    (hsplit : rule.split cs = [⟨.unknown, cs⟩]) (f : List Char) (c : Char) (b : List Char)
    (hcs : cs = f ++ c :: b) : rule f.reverse (c :: b) = .leave 0 := by
  have hscan (cs : List Char) : ∀ before,
      (∀ p ∈ rule.scan 0 before cs, p.kind = .unknown) →
      ∀ f, cs = f ++ c :: b → rule (f.reverse ++ before) (c :: b) = .leave 0 := by
    induction cs with
    | nil =>
      intro before _ f hnil
      simp at hnil
    | cons d cs ih =>
      intro before hall f heq
      rw [scan] at hall
      rcases h before (d :: cs) with hleave | ⟨kind, more, hmark, hkind⟩
      · rw [hleave] at hall
        cases f with
        | nil =>
          cases heq
          exact hleave
        | cons e f =>
          obtain ⟨rfl, htail⟩ := List.cons.inj heq
          have hrest := ih (d :: before) ?_ f htail
          · simpa using hrest
          · intro p hp
            refine Decidable.byContradiction fun hkind => ?_
            exact hkind (hall p ((mem_prepend_iff hkind).mpr hp))
      · rw [hmark] at hall
        exact absurd (hall _ List.mem_cons_self) hkind
  have hstart := hscan cs [] ?_ f hcs
  · rwa [List.append_nil] at hstart
  · rw [← split, hsplit]
    simp

end Rule

namespace Lexer

/-- Something has been found: there are several pieces, or one that is not only a word. -/
structure Settled (ps : List Piece) : Prop where
  nonempty : ∀ p ∈ ps, p.chars ≠ []
  found : 2 ≤ ps.length ∨ ∃ p ∈ ps, p.kind ≠ .unknown ∧ p.kind ≠ .word

/-- The stage takes back nothing that has been found, and leaves a text in which it finds
nothing. -/
structure Finds (stage : List Piece → List Piece) : Prop where
  keeps : ∀ ps, Settled ps → Settled (stage ps)
  decides : ∀ cs, cs ≠ [] →
    stage [⟨.unknown, cs⟩] = [⟨.unknown, cs⟩] ∨ Settled (stage [⟨.unknown, cs⟩])

theorem length_refine {split : List Char → List Piece} (hsplit : ∀ cs, cs ≠ [] → split cs ≠ [])
    {ps : List Piece} (hps : ∀ p ∈ ps, p.chars ≠ []) : ps.length ≤ (refine split ps).length := by
  induction ps with
  | nil => simp
  | cons p ps ih =>
    obtain ⟨hp, hrest⟩ := List.forall_mem_cons.mp hps
    obtain ⟨kind, cs⟩ := p
    have hlen := ih hrest
    by_cases hkind : kind = .unknown
    · subst hkind
      have hpos := List.length_pos_iff.mpr (hsplit cs hp)
      rw [refine_unknown, List.length_append, List.length_cons]
      omega
    · rw [refine_known hkind, List.length_cons, List.length_cons]
      omega

/-- Pieces that cover a text are the whole text as one unclassified piece, or something has been
found. -/
theorem eq_or_settled {cs : List Char} {ps : List Piece} (h : Covers cs ps) (hne : cs ≠ [])
    (hword : ∀ p ∈ ps, p.kind ≠ .word) : ps = [⟨.unknown, cs⟩] ∨ Settled ps := by
  obtain ⟨rfl, hps⟩ := h
  cases ps with
  | nil => exact absurd rfl hne
  | cons p ps =>
    cases ps with
    | nil =>
      obtain ⟨kind, chars⟩ := p
      by_cases hkind : kind = .unknown
      · subst hkind
        exact .inl (by simp [spell])
      · exact .inr ⟨hps, .inr ⟨_, List.mem_cons_self, hkind, hword _ List.mem_cons_self⟩⟩
    | cons q ps => exact .inr ⟨hps, .inl (by simp)⟩

private theorem finds_refine {rule : Rule}
    (h : ∀ before cs more, rule before cs ≠ .mark .word more) : Finds (refine rule.split) := by
  constructor
  · rintro ps ⟨hps, hfound⟩
    have hcovers : Covers (spell ps) ps := ⟨rfl, hps⟩
    refine ⟨(hcovers.refine rule.covers_split).nonempty, ?_⟩
    rcases hfound with hlen | ⟨p, hp, hkind⟩
    · exact .inl (Nat.le_trans hlen (length_refine (fun _ => Rule.split_ne_nil) hps))
    · refine .inr ⟨p, List.mem_flatMap.mpr ⟨p, hp, ?_⟩, hkind⟩
      simp [hkind.1]
  · intro cs hne
    rw [refine_unknown, refine, List.flatMap_nil, List.append_nil]
    refine eq_or_settled (rule.covers_split cs) hne ?_
    intro p hp hword
    obtain ⟨before, rest, more, hmark⟩ := Rule.exists_mark_of_mem_scan hp (by simp [hword])
    rw [hword] at hmark
    exact h before rest more hmark

private theorem finds_classify {kindOf? : List Char → Option TokenKind}
    (h : ∀ cs, kindOf? cs ≠ some .word) : Finds (classify kindOf?) := by
  constructor
  · rintro ps ⟨hps, hfound⟩
    have hcovers : Covers (spell ps) ps := ⟨rfl, hps⟩
    refine ⟨(hcovers.classify kindOf?).nonempty, ?_⟩
    rcases hfound with hlen | ⟨p, hp, hkind⟩
    · exact .inl (by simpa [classify] using hlen)
    · refine .inr ⟨p, List.mem_map.mpr ⟨p, hp, ?_⟩, hkind⟩
      simp [hkind.1]
  · intro cs hne
    have hcovers : Covers cs [⟨.unknown, cs⟩] := ⟨by simp [spell], by simpa using hne⟩
    refine eq_or_settled (hcovers.classify kindOf?) hne ?_
    intro p hp
    cases hkind : kindOf? cs with
    | none => simp_all [classify]
    | some kind =>
      have hword : kind ≠ .word := by
        rintro rfl
        exact h cs hkind
      simp_all [classify]

private theorem finds_single {kind : TokenKind} (hkind : kind ≠ .word) (p : Char → Bool) :
    Finds (refine (Rule.single kind p).split) := by
  refine finds_refine ?_
  intro before cs more
  fun_cases Rule.single kind p before cs <;> simp [hkind]

private theorem finds_phrase {kind : TokenKind} (hkind : kind ≠ .word) (words : List String) :
    Finds (refine (Words.phrase kind words).split) := by
  refine finds_refine ?_
  intro before cs more
  fun_cases Words.phrase kind words before cs <;> simp [hkind]

private theorem finds_of_mem_early : ∀ rule ∈ early, Finds (refine rule.split) := by
  have hquotes : Finds (refine Literal.quotesAndComments.split) := by
    refine finds_refine ?_
    intro before cs more
    fun_cases Literal.quotesAndComments before cs <;> simp
  have hparams : Finds (refine Literal.params.split) := by
    refine finds_refine ?_
    intro before cs more
    fun_cases Literal.params before cs <;> simp
  have hcommands : Finds (refine Words.commands.split) := by
    refine finds_refine ?_
    intro before cs more
    fun_cases Words.commands before cs <;> simp
  have hnames : Finds (refine Words.functionNames.split) := by
    refine finds_refine ?_
    intro before cs more
    fun_cases Words.functionNames before cs <;> simp
  simp [early, cutting, hquotes, hparams, hcommands, hnames, finds_single, finds_phrase]

private theorem finds_blanks : Finds (refine Words.blanks.split) := by
  refine finds_refine ?_
  intro before cs more
  fun_cases Words.blanks before cs <;> simp

private theorem finds_of_mem_late : ∀ stage ∈ late, Finds stage := by
  have hrelations : Finds (refine Words.relations.split) := by
    refine finds_refine ?_
    intro before cs more
    fun_cases Words.relations before cs <;> simp
  have hkeywords : Finds (classify Words.keyword?) := by
    have hall : ∀ entry ∈ Words.keywords, entry.2 ≠ .word := by decide
    refine finds_classify ?_
    intro cs h
    obtain ⟨entry, hfind, hkind⟩ := Option.map_eq_some_iff.mp h
    exact hall entry (List.mem_of_find?_eq_some hfind) hkind
  have hsome {kind : TokenKind} (hkind : kind ≠ .word) (shape : List Char → Bool) :
      Finds (classify fun cs => if shape cs then some kind else none) := by
    refine finds_classify ?_
    intro cs
    split <;> simp [hkind]
  have hremaining : Finds (classify remaining) := hsome (by simp) _
  have harith : Finds (classify Words.arith?) := finds_classify (by simp [Words.arith?])
  simp [late, naming, finds_single, hrelations, hkeywords, hsome, hremaining, harith]

/-- If nothing is found in a text in the end, then no stage has found anything in it. -/
theorem idle_of_foldl {stages : List (List Piece → List Piece)} (h : ∀ stage ∈ stages, Finds stage)
    {cs : List Char} (hne : cs ≠ [])
    (hfinal : ¬ Settled (stages.foldl (fun ps stage => stage ps) [⟨.unknown, cs⟩])) :
    ∀ stage ∈ stages, stage [⟨.unknown, cs⟩] = [⟨.unknown, cs⟩] := by
  have hkeeps (stages : List (List Piece → List Piece)) (h : ∀ stage ∈ stages, Finds stage) :
      ∀ ps, Settled ps → Settled (stages.foldl (fun ps stage => stage ps) ps) := by
    induction stages with
    | nil => exact fun _ hps => hps
    | cons stage stages ih =>
      obtain ⟨hstage, hstages⟩ := List.forall_mem_cons.mp h
      exact fun ps hps => ih hstages _ (hstage.keeps ps hps)
  induction stages with
  | nil => simp
  | cons stage stages ih =>
    obtain ⟨hstage, hstages⟩ := List.forall_mem_cons.mp h
    rw [List.foldl_cons] at hfinal
    rcases hstage.decides cs hne with hidle | hsettled
    · rw [hidle] at hfinal
      exact List.forall_mem_cons.mpr ⟨hidle, ih hstages hfinal⟩
    · exact absurd (hkeeps stages hstages _ hsettled) hfinal

/-- The last stage makes words of unclassified pieces only. -/
theorem not_settled_of_word {cs : List Char} {ps : List Piece} (h : finish ps = [⟨.word, cs⟩]) :
    ¬ Settled (polish ps) := by
  rw [finish] at h
  generalize polish ps = ps at h ⊢
  have hlength : ps.length = 1 := by
    have hmarked := congrArg List.length (chars_markBetween false ps)
    have hclassified := congrArg List.length h
    simp only [classify, List.length_map, List.length_singleton] at hmarked hclassified
    omega
  obtain ⟨p, rfl⟩ := List.length_eq_one_iff.mp hlength
  rintro ⟨-, hlong | ⟨q, hq, hkind, hword⟩⟩
  · simp at hlong
  · obtain rfl : p = q := (List.mem_singleton.mp hq).symm
    have hmark : markBetween false [p] = [p] := by
      rw [markBetween.eq_def]
      simp only [markBetween]
      split <;> rfl
    rw [hmark] at h
    simp only [classify, List.map_cons, List.map_nil, hkind, if_false, List.cons.injEq] at h
    exact hword (congrArg Piece.kind h.1)

/-- No stage finds anything in a word. -/
theorem idle_of_word {cs : List Char} (h : pieces cs = [⟨.word, cs⟩]) :
    (∀ rule ∈ early, rule.split cs = [⟨.unknown, cs⟩]) ∧
      Words.blanks.split cs = [⟨.unknown, cs⟩] ∧
      ∀ stage ∈ late, stage [⟨.unknown, cs⟩] = [⟨.unknown, cs⟩] := by
  have hne : cs ≠ [] := (covers_pieces cs).nonempty ⟨.word, cs⟩ (by simp [h])
  have hfinds : ∀ stage ∈ early.map (fun rule => refine rule.split) ++
      refine Words.blanks.split :: late, Finds stage := by
    intro stage hstage
    simp only [List.mem_append, List.mem_map, List.mem_cons] at hstage
    rcases hstage with ⟨rule, hrule, rfl⟩ | rfl | hstage
    · exact finds_of_mem_early rule hrule
    · exact finds_blanks
    · exact finds_of_mem_late stage hstage
  have hfinal := not_settled_of_word ((pieces_eq cs).symm.trans h)
  rw [firstCut, start, if_neg (by simp [hne]), polish] at hfinal
  have hidle := idle_of_foldl hfinds hne (by simpa [List.foldl_append, List.foldl_map] using hfinal)
  have hrefine (rule : Rule) : refine rule.split [⟨.unknown, cs⟩] = rule.split cs := by
    simp [refine]
  refine ⟨?_, ?_, ?_⟩
  · intro rule hrule
    rw [← hrefine]
    exact hidle _ (List.mem_append_left _ (List.mem_map_of_mem hrule))
  · rw [← hrefine]
    exact hidle _ (by simp)
  · intro stage hstage
    exact hidle _ (by simp [hstage])

theorem steps_quotes : Literal.quotesAndComments.Steps := by
  intro before cs
  fun_cases Literal.quotesAndComments before cs <;> simp

theorem steps_single {kind : TokenKind} (hkind : kind ≠ .unknown) (p : Char → Bool) :
    (Rule.single kind p).Steps := by
  intro before cs
  fun_cases Rule.single kind p before cs <;> simp_all

theorem steps_blanks : Words.blanks.Steps := by
  intro before cs
  fun_cases Words.blanks before cs <;> simp_all

/-- No blank, quote, bracket, pipe or comment stands in a word. -/
theorem chars_of_word {cs : List Char} (h : pieces cs = [⟨.word, cs⟩]) :
    (∀ c ∈ cs, Text.isBlank c = false ∧ c ∉ ['"', '\'', '(', ')', '|']) ∧
      ¬['/', '/'] <:+: cs ∧ ¬['/', '*'] <:+: cs := by
  obtain ⟨hearly, hblanks, hlate⟩ := idle_of_word h
  have hquotes := steps_quotes.leave_of_split (hearly _ (by simp [early, cutting]))
  have hblank := steps_blanks.leave_of_split hblanks
  have hsingle (kind : TokenKind) (hkind : kind ≠ .unknown) {d : Char}
      (hsplit : (Rule.single kind (· == d)).split cs = [⟨.unknown, cs⟩]) : d ∉ cs := by
    intro hd
    obtain ⟨f, b, hcs⟩ := List.append_of_mem hd
    have hleave := (steps_single hkind _).leave_of_split hsplit f d b hcs
    simp [Rule.single] at hleave
  have hopen : '(' ∉ cs := hsingle .openBracket (by simp) (hearly _ (by simp [early, cutting]))
  have hclose : ')' ∉ cs := hsingle .closeBracket (by simp) (hearly _ (by simp [early, cutting]))
  have hpipe : '|' ∉ cs := by
    have hidle := hlate _ List.mem_cons_self
    rw [refine_unknown] at hidle
    exact hsingle .pipe (by simp) (by simpa [refine] using hidle)
  refine ⟨?_, ?_, ?_⟩
  · intro c hc
    obtain ⟨f, b, hcs⟩ := List.append_of_mem hc
    have hleave := hquotes f c b hcs
    have hkeep := hblank f c b hcs
    refine ⟨by simpa [Words.blanks] using hkeep, ?_⟩
    intro hmem
    simp only [List.mem_cons, List.not_mem_nil, or_false] at hmem
    rcases hmem with rfl | rfl | rfl | rfl | rfl
    · simp [Literal.quotesAndComments] at hleave
    · simp [Literal.quotesAndComments] at hleave
    · exact hopen hc
    · exact hclose hc
    · exact hpipe hc
  · rintro ⟨f, b, hcs⟩
    have hleave := hquotes f '/' ('/' :: b) (by simp [← hcs])
    simp [Literal.quotesAndComments] at hleave
  · rintro ⟨f, b, hcs⟩
    have hleave := hquotes f '/' ('*' :: b) (by simp [← hcs])
    simp [Literal.quotesAndComments] at hleave

/-- A word in which no parameter starts and which starts no test can stand before other text. -/
theorem plain_of_word {cs : List Char} (h : pieces cs = [⟨.word, cs⟩])
    (hparam : ¬['$', '\x7b'] <:+: cs) (htest : Words.afterWord? "is".toList cs ≠ some []) :
    Words.Plain cs := by
  obtain ⟨hchars, hcomment, hblock⟩ := chars_of_word h
  exact ⟨hchars, hcomment, hblock, hparam, htest⟩

/-- A word in which no parameter starts is quiet. -/
theorem quiet_of_word {cs : List Char} (h : pieces cs = [⟨.word, cs⟩])
    (hparam : ¬['$', '\x7b'] <:+: cs) : Words.Quiet cs := by
  obtain ⟨hchars, hcomment, hblock⟩ := chars_of_word h
  have hnot (c : Char) (hc : c ∈ ['"', '\'', '(', ')', '|']) : c ∉ cs :=
    fun hmem => (hchars c hmem).2 hc
  exact ⟨⟨hnot _ (by simp), hnot _ (by simp)⟩, hcomment, hblock, hparam, hnot _ (by simp)⟩

end Lexer

end PipeQuery
