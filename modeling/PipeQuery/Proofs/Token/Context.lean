import Mathlib.Data.List.Induction
import PipeQuery.Proofs.Token.Delimiter

/-!
What stands beside function names and commands. The rule that marks a name sees the open bracket
after it, or the pipe before it, as plain text, which other stages classify later. No stage in
between puts anything there, so that the name has the bracket or the pipe beside it in the end.
-/
namespace PipeQuery

open Piece

/-- What the rule that marks a lexeme of the kind has seen before and after it. -/
def TokenKind.Context : TokenKind → List Char → List Char → Prop
  | .command, before, _ =>
    ∃ front blanks, before = front ++ '|' :: blanks ∧ ∀ c ∈ blanks, Text.isBlank c
  | .functionName, _, after => after.head? = some '('
  | _, _, _ => True

/-- The kinds that hide nothing and whose lexemes may stand anywhere. -/
def TokenKind.isPlain (kind : TokenKind) : Bool :=
  !kind.hides && kind != .command && kind != .functionName

private theorem TokenKind.context_of_ne {kind : TokenKind} (hcommand : kind ≠ .command)
    (hname : kind ≠ .functionName) (before after : List Char) : kind.Context before after := by
  cases kind with
  | command => exact absurd rfl hcommand
  | functionName => exact absurd rfl hname
  | _ => trivial

namespace Piece

/-- Every piece has what its rule has seen in pieces beside it, none of which hides its text. -/
def InContext (ps : List Piece) : Prop :=
  ∀ front p back, ps = front ++ p :: back → ∃ far before after rest,
    front = far ++ before ∧ back = after ++ rest ∧
      (∀ q ∈ before ++ after, q.kind.hides = false) ∧
      p.kind.Context (spell before) (spell after)

private theorem inContext_of_ne {ps : List Piece}
    (h : ∀ p ∈ ps, p.kind ≠ .command ∧ p.kind ≠ .functionName) : InContext ps := by
  rintro front p back rfl
  obtain ⟨hcommand, hname⟩ := h p (by simp)
  exact ⟨front, [], [], back, by simp, rfl, by simp, TokenKind.context_of_ne hcommand hname _ _⟩

inductive Makes (p : Piece) : List Piece → Prop where
  | kept : Makes p [p]
  | cut {made : List Piece} (spells : spell made = p.chars)
      (shows : ∀ q ∈ made, q.kind.hides = false)
      (context : ∀ front q back, made = front ++ q :: back →
        q.kind.Context (spell front) (spell back)) : Makes p made

inductive Develops : List Piece → List Piece → Prop where
  | nil : Develops [] []
  | cons {p : Piece} {ps made rest : List Piece} (head : Makes p made) (tail : Develops ps rest) :
      Develops (p :: ps) (made ++ rest)

theorem Makes.spell_eq {p : Piece} {made : List Piece} (h : Makes p made) :
    spell made = p.chars := by
  cases h with
  | kept => simp [spell]
  | cut spells => exact spells

private theorem Makes.shows {p : Piece} {made : List Piece} (h : Makes p made)
    (hp : p.kind.hides = false) : ∀ q ∈ made, q.kind.hides = false := by
  cases h with
  | kept => exact List.forall_mem_singleton.mpr hp
  | cut _ shows => exact shows

namespace Develops
variable {ps qs : List Piece}

theorem spell_eq (h : Develops ps qs) : spell qs = spell ps := by
  induction h with
  | nil => rfl
  | cons head _ ih => rw [spell_append, spell_cons, head.spell_eq, ih]

private theorem shows (h : Develops ps qs) (hps : ∀ p ∈ ps, p.kind.hides = false) :
    ∀ q ∈ qs, q.kind.hides = false := by
  induction h with
  | nil => exact hps
  | cons head _ ih =>
    obtain ⟨hp, hrest⟩ := List.forall_mem_cons.mp hps
    exact List.forall_mem_append.mpr ⟨head.shows hp, ih hrest⟩

private theorem of_forall₂ (h : List.Forall₂ (fun p q => Makes p [q]) ps qs) : Develops ps qs := by
  induction h with
  | nil => exact .nil
  | cons hmakes _ ih => exact .cons hmakes ih

theorem of_append {front back : List Piece} (h : Develops (front ++ back) qs) :
    ∃ front' back', qs = front' ++ back' ∧ Develops front front' ∧ Develops back back' := by
  induction front generalizing qs with
  | nil => exact ⟨[], qs, rfl, .nil, h⟩
  | cons p front ih =>
    cases h with
    | @cons _ _ made rest head tail =>
      obtain ⟨front', back', rfl, hfront, hback⟩ := ih tail
      exact ⟨made ++ front', back', (List.append_assoc ..).symm, .cons head hfront, hback⟩

/-- Every piece was made of one before, and so were those on either side of it. -/
theorem exists_made {front back : List Piece} {q : Piece} (h : Develops ps (front ++ q :: back)) :
    ∃ far p near front' back' far' near', ps = far ++ p :: near ∧ Makes p (front' ++ q :: back') ∧
      Develops far far' ∧ Develops near near' ∧ front = far' ++ front' ∧ back = back' ++ near' := by
  generalize hqs : front ++ q :: back = qs at h
  induction h generalizing front with
  | nil => simp at hqs
  | @cons p ps made rest head tail ih =>
    rcases List.append_eq_append_iff.mp hqs with ⟨mid, hmade, hrest⟩ | ⟨mid, hfront, hrest⟩
    · cases mid with
      | nil =>
        -- The piece is the first of what the others have been made into.
        obtain ⟨far, p', near, front', back', far', near', rfl, hmakes, hfar, hnear, hf, rfl⟩ :=
          @ih [] hrest
        obtain ⟨rfl, rfl⟩ := List.append_eq_nil_iff.mp hf.symm
        refine ⟨p :: far, p', near, [], back', made ++ [], near', rfl, hmakes,
          .cons head hfar, hnear, ?_, rfl⟩
        simpa using hmade.symm
      | cons q' mid =>
        obtain ⟨rfl, rfl⟩ := List.cons.inj hrest
        exact ⟨[], p, ps, front, mid, [], rest, rfl, hmade ▸ head, .nil, tail, rfl, rfl⟩
    · obtain ⟨far, p', near, front', back', far', near', rfl, hmakes, hfar, hnear, rfl, rfl⟩ :=
        ih hrest.symm
      refine ⟨p :: far, p', near, front', back', made ++ far', near', rfl, hmakes,
        .cons head hfar, hnear, ?_, rfl⟩
      rw [hfront, List.append_assoc]

end Develops

/-- A stage that cuts and keeps pieces like this leaves what stands beside a name. -/
theorem InContext.develops {ps qs : List Piece} (h : InContext ps) (hdevelops : Develops ps qs) :
    InContext qs := by
  rintro front q back rfl
  obtain ⟨far, p, near, front', back', far', near', rfl, hmakes, hfar, hnear, rfl, rfl⟩ :=
    hdevelops.exists_made
  generalize hmade : front' ++ q :: back' = made at hmakes
  cases hmakes with
  | kept =>
    obtain ⟨rfl, rfl, rfl⟩ : front' = [] ∧ q = p ∧ back' = [] := by
      simpa [List.append_eq_singleton_iff] using hmade
    obtain ⟨far, before, after, rest, rfl, rfl, hshows, hcontext⟩ := h _ _ _ rfl
    obtain ⟨far', before', rfl, -, hbefore⟩ := hfar.of_append
    obtain ⟨after', rest', rfl, hafter, -⟩ := hnear.of_append
    obtain ⟨hshows, hshows'⟩ := List.forall_mem_append.mp hshows
    refine ⟨far', before', after', rest', by simp, rfl, ?_, ?_⟩
    · exact List.forall_mem_append.mpr ⟨hbefore.shows hshows, hafter.shows hshows'⟩
    · rwa [hbefore.spell_eq, hafter.spell_eq]
  | cut spells shows context =>
    subst hmade
    refine ⟨far', front', back', near', rfl, rfl, ?_, context _ _ _ rfl⟩
    intro p hp
    apply shows
    rcases List.mem_append.mp hp with hp | hp
    · exact List.mem_append_left _ hp
    · exact List.mem_append_right _ (List.mem_cons_of_mem _ hp)

/-- A piece may be given a plain kind as a whole. -/
theorem Makes.renamed {kind : TokenKind} (h : kind.isPlain) (p : Piece) :
    Makes p [⟨kind, p.chars⟩] := by
  simp only [TokenKind.isPlain, Bool.and_eq_true, Bool.not_eq_true', bne_iff_ne] at h
  obtain ⟨⟨hshows, hcommand⟩, hname⟩ := h
  refine .cut (by simp [spell]) (List.forall_mem_singleton.mpr hshows) ?_
  intro front q back hmade
  obtain ⟨rfl, rfl, rfl⟩ : front = [] ∧ q = ⟨kind, p.chars⟩ ∧ back = [] := by
    simpa [List.append_eq_singleton_iff, and_assoc, eq_comm] using hmade
  exact TokenKind.context_of_ne hcommand hname _ _

end Piece

/-- The rule marks a name only in its context, and it marks nothing that hides text. -/
structure Rule.Looks (rule : Rule) : Prop where
  shows : ∀ before cs kind more, rule before cs = .mark kind more → kind.hides = false
  context : ∀ before cs kind more, rule before cs = .mark kind more →
    kind.Context before.reverse (cs.drop (more + 1))

namespace Rule
variable {rule : Rule}

private theorem looks_of_plain
    (h : ∀ before cs kind more, rule before cs = .mark kind more → kind.isPlain) : rule.Looks := by
  simp only [TokenKind.isPlain, Bool.and_eq_true, Bool.not_eq_true', bne_iff_ne] at h
  constructor
  · intro before cs kind more hmark
    exact (h before cs kind more hmark).1.1
  · intro before cs kind more hmark
    obtain ⟨⟨-, hcommand⟩, hname⟩ := h before cs kind more hmark
    exact TokenKind.context_of_ne hcommand hname _ _

private theorem Looks.makes (h : rule.Looks) (p : Piece) : Makes p (rule.split p.chars) := by
  refine .cut (rule.covers_split p.chars).spells ?_ ?_
  · intro q hq
    by_cases hkind : q.kind = .unknown
    · rw [hkind]
      rfl
    · obtain ⟨before, cs, more, hmark⟩ := exists_mark_of_mem_scan hq hkind
      exact h.shows _ _ _ _ hmark
  · intro front q back hsplit
    by_cases hkind : q.kind = .unknown
    · exact TokenKind.context_of_ne (by simp [hkind]) (by simp [hkind]) _ _
    · obtain ⟨more, hmark, hchars⟩ := mark_of_scan hsplit hkind
      have hcontext := h.context _ _ _ _ hmark
      have hdrop : (q.chars ++ spell back).drop (more + 1) = spell back := by
        have hwhole := List.take_append_drop (more + 1) (q.chars ++ spell back)
        rw [← hchars] at hwhole
        exact List.append_cancel_left hwhole
      rw [hdrop] at hcontext
      simpa using hcontext

end Rule

namespace Piece.InContext
variable {ps : List Piece}

theorem refine {rule : Rule} (h : InContext ps) (hrule : rule.Looks) :
    InContext (Piece.refine rule.split ps) := by
  refine h.develops ?_
  clear h
  induction ps with
  | nil => exact .nil
  | cons p ps ih =>
    rw [Piece.refine, List.flatMap_cons]
    refine .cons ?_ ih
    split
    · exact hrule.makes p
    · exact .kept

theorem classify {kindOf? : List Char → Option TokenKind} (h : InContext ps)
    (hkinds : ∀ cs kind, kindOf? cs = some kind → kind.isPlain) :
    InContext (Piece.classify kindOf? ps) := by
  refine h.develops (.of_forall₂ ?_)
  rw [Piece.classify, List.forall₂_map_right_iff, List.forall₂_same]
  intro p _
  split
  next =>
    split
    next kind hkind => exact .renamed (hkinds _ _ hkind) p
    next => exact .kept
  next => exact .kept

theorem markBetween (h : InContext ps) (waiting : Bool) :
    InContext (Lexer.markBetween waiting ps) := by
  refine h.develops (.of_forall₂ ((Lexer.separates_markBetween waiting ps).imp ?_))
  rintro p q (rfl | ⟨-, rfl⟩)
  · exact .kept
  · exact .renamed rfl p

end Piece.InContext

namespace Words

private theorem looks_commands : commands.Looks := by
  constructor
  · intro before cs kind more
    fun_cases commands before cs with
    | case1 => rintro ⟨⟩; rfl
    | case2 | case3 =>
      intro hmark
      cases hmark
  · intro before cs kind more
    fun_cases commands before cs with
    | case1 before c cs hc =>
      rintro ⟨⟩
      simp only [Bool.and_eq_true, beq_iff_eq] at hc
      -- What the rule looks back at is the text before the name, read from its end.
      obtain ⟨rest, hrest⟩ := List.head?_eq_some_iff.mp hc.2
      refine ⟨rest.reverse, (before.takeWhile Text.isBlank).reverse, ?_, ?_⟩
      · have hsplit : before = before.takeWhile Text.isBlank ++ '|' :: rest := by
          rw [← hrest, List.takeWhile_append_dropWhile]
        simpa using congrArg List.reverse hsplit
      · intro d hd
        exact List.all_eq_true.mp List.all_takeWhile d (List.mem_reverse.mp hd)
    | case2 | case3 =>
      intro hmark
      cases hmark

private theorem looks_functionNames : functionNames.Looks := by
  constructor
  · intro before cs kind more
    fun_cases functionNames before cs with
    | case1 =>
      intro hmark
      obtain ⟨rfl, -⟩ := Cut.mark.inj hmark
      rfl
    | case2 | case3 | case4 =>
      intro hmark
      cases hmark
  · intro before cs kind more
    fun_cases functionNames before cs with
    | case1 before c cs hc length hname =>
      intro hmark
      obtain ⟨rfl, rfl⟩ := Cut.mark.inj hmark
      simp only [Bool.and_eq_true, beq_iff_eq] at hname
      exact hname.1
    | case2 | case3 | case4 =>
      intro hmark
      cases hmark

private theorem looks_single (kind : TokenKind) (p : Char → Bool) (hkind : kind.isPlain) :
    (Rule.single kind p).Looks := by
  refine Rule.looks_of_plain ?_
  intro before cs kind' more
  fun_cases Rule.single kind p before cs with
  | case1 => rintro ⟨⟩; exact hkind
  | case2 | case3 =>
    intro hmark
    cases hmark

private theorem looks_phrase (kind : TokenKind) (words : List String) (hkind : kind.isPlain) :
    (phrase kind words).Looks := by
  refine Rule.looks_of_plain ?_
  intro before cs kind' more
  fun_cases phrase kind words before cs with
  | case1 =>
    intro hmark
    obtain ⟨rfl, -⟩ := Cut.mark.inj hmark
    exact hkind
  | case2 | case3 =>
    intro hmark
    cases hmark

private theorem looks_blanks : blanks.Looks := by
  refine Rule.looks_of_plain ?_
  intro before cs kind more
  fun_cases blanks before cs with
  | case1 => rintro ⟨⟩; rfl
  | case2 | case3 =>
    intro hmark
    cases hmark

private theorem looks_relations : relations.Looks := by
  refine Rule.looks_of_plain ?_
  intro before cs kind more
  fun_cases relations before cs with
  | case7 =>
    intro hmark
    cases hmark
  | _ => rintro ⟨⟩; rfl

private theorem isPlain_of_keyword {cs : List Char} {kind : TokenKind}
    (h : keyword? cs = some kind) : kind.isPlain := by
  have hall : keywords.all (·.2.isPlain) := by decide
  obtain ⟨entry, hfind, rfl⟩ := Option.map_eq_some_iff.mp h
  exact List.all_eq_true.mp hall entry (List.mem_of_find?_eq_some hfind)

end Words

namespace Lexer

/-- The stages for hidden text mark no names. -/
theorem ne_of_refine_literal {rule : Rule}
    (h : ∀ before cs kind more, rule before cs = .mark kind more → kind.hides) {ps : List Piece}
    (hps : ∀ p ∈ ps, p.kind ≠ .command ∧ p.kind ≠ .functionName) :
    ∀ p ∈ refine rule.split ps, p.kind ≠ .command ∧ p.kind ≠ .functionName := by
  intro p hp
  rcases of_mem_refine hp with ⟨hp, -⟩ | ⟨q, -, -, hp⟩
  · exact hps p hp
  · by_cases hkind : p.kind = .unknown
    · simp [hkind]
    · obtain ⟨before, cs, more, hmark⟩ := Rule.exists_mark_of_mem_scan hp hkind
      have hhides := h _ _ _ _ hmark
      constructor <;> (intro hname; rw [hname] at hhides; cases hhides)

private theorem inContext_literals (cs : List Char) : InContext
    (refine Literal.params.split (refine Literal.quotesAndComments.split (start cs))) := by
  refine inContext_of_ne (ne_of_refine_literal ?_ (ne_of_refine_literal ?_ ?_))
  · intro before cs kind more
    fun_cases Literal.params before cs <;> (intro hmark; cases hmark)
    rfl
  · intro before cs kind more
    fun_cases Literal.quotesAndComments before cs <;> (intro hmark; cases hmark) <;> rfl
  · intro p hp
    unfold start at hp
    split at hp
    · cases hp
    · cases List.mem_singleton.mp hp
      simp

private theorem inContext_cut (cs : List Char) :
    InContext (cutting.foldl (fun ps rule => refine rule.split ps) (start cs)) := by
  have hliterals := inContext_literals cs
  have hnames := (hliterals.refine Words.looks_commands).refine Words.looks_functionNames
  have hbrackets := (hnames.refine (Words.looks_single .openBracket (· == '(') rfl)).refine
    (Words.looks_single .closeBracket (· == ')') rfl)
  have htests := (hbrackets.refine
      (Words.looks_phrase .isNotNull ["is", "not", "null"] rfl)).refine
    (Words.looks_phrase .isNull ["is", "null"] rfl)
  have hblanks := htests.refine Words.looks_blanks
  simp only [cutting, List.foldl_cons, List.foldl_nil]
  exact (hblanks.refine (Words.looks_single _ _ rfl)).refine (Words.looks_single _ _ rfl)

private theorem inContext_named {ps : List Piece} (h : InContext ps) :
    InContext (naming.foldl (fun ps kindOf? => classify kindOf? ps) ps) := by
  refine (((h.classify ?_).classify ?_).classify ?_).classify ?_
  · intro cs kind hkeyword
    exact Words.isPlain_of_keyword hkeyword
  · intro cs kind hdate
    split at hdate <;> cases hdate
    rfl
  · intro cs kind hduration
    split at hduration <;> cases hduration
    rfl
  · intro cs kind harith
    obtain ⟨op, -, rfl⟩ := Option.map_eq_some_iff.mp harith
    rfl

private theorem inContext_pieces (cs : List Char) : InContext (pieces cs) := by
  have hrelations := (inContext_named (inContext_cut cs)).refine Words.looks_relations
  rw [pieces, ← start]
  refine ((hrelations.classify ?_).markBetween false).classify ?_
  · intro cs kind hnumber
    unfold remaining at hnumber
    split at hnumber <;> cases hnumber
    rfl
  · rintro cs kind ⟨⟩
    rfl

/-- In pieces that hide nothing, the pipe and the blanks at the end of the text are pieces. -/
theorem exists_pipe {ps : List Piece} (hne : ∀ p ∈ ps, p.chars ≠ [])
    (htidy : ∀ p ∈ ps, p.Tidy ∧ p.kind.hides = false) {front blanks : List Char}
    (h : spell ps = front ++ '|' :: blanks) (hblanks : ∀ c ∈ blanks, Text.isBlank c) :
    ∃ far rest, ps = far ++ ⟨.pipe, ['|']⟩ :: rest ∧
      ∀ q ∈ rest, q.kind = .whitespace ∧ ∀ c ∈ q.chars, Text.isBlank c := by
  -- The last piece has the pipe in it, or it is one of blanks after the pipe.
  induction ps using List.reverseRecOn generalizing blanks with
  | nil => simp [spell] at h
  | append_singleton ps p ih =>
    obtain ⟨hne, hp⟩ := List.forall_mem_append.mp hne
    obtain ⟨htidy, hlast⟩ := List.forall_mem_append.mp htidy
    obtain ⟨hlast, hshows⟩ := List.forall_mem_singleton.mp hlast
    have hpipe (hmem : '|' ∈ p.chars) : ∃ far rest, ps ++ [p] = far ++ ⟨.pipe, ['|']⟩ :: rest ∧
        ∀ q ∈ rest, q.kind = .whitespace ∧ ∀ c ∈ q.chars, Text.isBlank c :=
      ⟨ps, [], by rw [hlast.mark hshows '|' hmem .pipe rfl], by simp⟩
    have hspell : spell ps ++ p.chars = front ++ '|' :: blanks := by
      simpa [spell_append, spell] using h
    rcases List.append_eq_append_iff.mp hspell with ⟨mid, -, hchars⟩ | ⟨mid, hmid, hchars⟩
    · exact hpipe (by simp [hchars])
    · cases mid with
      | nil =>
        rw [List.nil_append] at hchars
        exact hpipe (hchars ▸ List.mem_cons_self)
      | cons d mid =>
        obtain ⟨rfl, rfl⟩ := List.cons.inj hchars
        obtain ⟨hmids, hall⟩ := List.forall_mem_append.mp hblanks
        obtain ⟨far, rest, rfl, hrest⟩ := ih hne htidy hmid hmids
        have hwhite : p.kind = .whitespace := by
          have hp := hp p List.mem_cons_self
          have hget := List.getLast_mem hp
          rcases hlast.blank hshows _ hget (hall _ hget) with ⟨hkind, -⟩ | ⟨-, htest⟩
          · exact hkind
          · have hnot := htest _ (List.getLast?_eq_some_getLast hp)
            rw [hall _ hget] at hnot
            cases hnot
        refine ⟨far, rest ++ [p], by simp, ?_⟩
        exact List.forall_mem_append.mpr ⟨hrest, List.forall_mem_singleton.mpr ⟨hwhite, hall⟩⟩

section Pieces
variable {cs : List Char} {front back : List Piece} {p : Piece}

private theorem exists_bracket_of_pieces (h : pieces cs = front ++ p :: back)
    (hp : p.kind = .functionName) : ∃ rest, back = ⟨.openBracket, ['(']⟩ :: rest := by
  obtain ⟨far, before, after, rest, rfl, rfl, hshows, hcontext⟩ := inContext_pieces cs _ _ _ h
  rw [hp] at hcontext
  cases after with
  | nil => cases hcontext
  | cons q after =>
    have hq : q ∈ pieces cs := by simp [h]
    have hmem : '(' ∈ q.chars := by
      have hne := (covers_pieces cs).nonempty q hq
      have hhead : (q.chars ++ spell after).head? = some '(' := hcontext
      rw [List.head?_append_of_ne_nil _ hne] at hhead
      exact List.mem_of_mem_head? hhead
    have hbracket := (tidy_of_mem_pieces hq).mark (hshows q (by simp)) '(' hmem .openBracket rfl
    exact ⟨after ++ rest, by rw [← hbracket, List.cons_append]⟩

private theorem exists_pipe_of_pieces (h : pieces cs = front ++ p :: back)
    (hp : p.kind = .command) :
    ∃ far blanks, front = far ++ ⟨.pipe, ['|']⟩ :: blanks ∧
      ∀ q ∈ blanks, q.kind = .whitespace ∧ ∀ c ∈ q.chars, Text.isBlank c := by
  obtain ⟨far, before, after, rest, rfl, rfl, hshows, hcontext⟩ := inContext_pieces cs _ _ _ h
  rw [hp] at hcontext
  obtain ⟨text, blanks, hspell, hblanks⟩ := hcontext
  have hmem {q : Piece} (hq : q ∈ before) : q ∈ pieces cs := by simp [h, hq]
  have htidy : ∀ q ∈ before, q.Tidy ∧ q.kind.hides = false := fun q hq =>
    ⟨tidy_of_mem_pieces (hmem hq), hshows q (List.mem_append_left _ hq)⟩
  obtain ⟨near, rest, rfl, hrest⟩ :=
    exists_pipe (fun q hq => (covers_pieces cs).nonempty q (hmem hq)) htidy hspell hblanks
  exact ⟨far ++ near, rest, by simp, hrest⟩

end Pieces

section Tokens
variable {text : String} {front back : List Token} {t : Token}

/-- A function name has its open bracket directly after it. -/
theorem exists_bracket_of_tokens (h : tokens text = front ++ t :: back)
    (ht : t.kind = .functionName) :
    ∃ b rest, back = b :: rest ∧ b.kind = .openBracket ∧ b.span.start = t.span.stop := by
  have hplaces := places_tokens text
  rw [h] at hplaces
  obtain ⟨_, p, _, hpieces, -, ⟨hkind, -⟩, hback⟩ := exists_append_of_forall₂ hplaces
  obtain ⟨rest, rfl⟩ := exists_bracket_of_pieces hpieces (hkind ▸ ht)
  cases hback with
  | @cons _ b _ back hb _ =>
    refine ⟨b, back, rfl, hb.1, ?_⟩
    have htile := (partition_layout (covers_pieces text.toList)).1
    rw [← tokens, h, List.map_append, List.map_cons, List.map_cons] at htile
    obtain ⟨_, -, hrest⟩ := htile.of_append
    generalize t.span = s at hrest ⊢
    generalize b.span = r at hrest ⊢
    cases hrest with
    | cons _ hrest =>
      generalize s.stop = stop at hrest ⊢
      cases hrest with
      | cons => rfl

/-- A command has its pipe before it, with nothing but blanks in between. -/
theorem exists_pipe_of_tokens (h : tokens text = front ++ t :: back) (ht : t.kind = .command) :
    ∃ far bar blanks, front = far ++ bar :: blanks ∧ bar.kind = .pipe ∧
      ∀ b ∈ blanks, b.kind = .whitespace := by
  have hplaces := places_tokens text
  rw [h] at hplaces
  obtain ⟨_, p, _, hpieces, hfront, ⟨hkind, -⟩, -⟩ := exists_append_of_forall₂ hplaces
  obtain ⟨far, blanks, rfl, hblanks⟩ := exists_pipe_of_pieces hpieces (hkind ▸ ht)
  obtain ⟨far', bar, blanks', rfl, -, hbar, hrest⟩ := exists_append_of_forall₂ hfront.flip
  refine ⟨far', bar, blanks', rfl, hbar.1, ?_⟩
  intro b hb
  obtain ⟨q, hq, hqb⟩ := exists_of_forall₂ hrest.flip hb
  exact hqb.1.trans (hblanks q hq).1

end Tokens

end Lexer

end PipeQuery
