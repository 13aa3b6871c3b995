import PipeQuery.Proofs.Token.Spacing

/-!
Blanks in the place of comments. A comment ends the text that a rule looks at, and a blank does not.
So a text keeps its lexemes with blanks in the place of comments, unless a blank joins what a
comment has kept apart: the words of a test for null, a pipe and its command, or the braces of a
parameter.
-/
namespace PipeQuery

open Piece

def TokenKind.isComment (kind : TokenKind) : Bool := kind == .comment || kind == .blockComment

private theorem TokenKind.isComment_iff {kind : TokenKind} :
    kind.isComment ↔ kind = .comment ∨ kind = .blockComment := by
  simp [isComment]

private theorem TokenKind.mem_kinds_of_isComment {kind : TokenKind} (h : kind.isComment) :
    kind ∈ Literal.kinds := by
  rcases isComment_iff.mp h with rfl | rfl <;> decide

private theorem TokenKind.isIgnorable_of_isComment {kind : TokenKind} (h : kind.isComment) :
    kind.isIgnorable := by
  rcases isComment_iff.mp h with rfl | rfl <;> rfl

namespace Text
variable {cs ds : List Char}

/-- The second text is the first, or goes on after it with a blank. -/
def Extends (cs ds : List Char) : Prop := ds = cs ∨ ∃ more, ds = cs ++ ' ' :: more

namespace Extends

theorem append_left (h : Extends cs ds) (front : List Char) :
    Extends (front ++ cs) (front ++ ds) := by
  rcases h with rfl | ⟨more, rfl⟩
  · exact .inl rfl
  · exact .inr ⟨more, (List.append_assoc ..).symm⟩

theorem takeWhile_eq (h : Extends cs ds) :
    ds.takeWhile isIdentifierRest = cs.takeWhile isIdentifierRest := by
  rcases h with rfl | ⟨more, rfl⟩
  · rfl
  · exact takeWhile_append_stop (by decide) cs more

theorem continues (h : Extends cs ds) : Words.Continues cs ds := by
  have hspace : isIdentifierRest ' ' = false := by decide
  refine ⟨?_, h.takeWhile_eq, ?_⟩
  all_goals rcases h with rfl | ⟨more, rfl⟩
  · exact id
  · cases cs with
    | nil => exact fun _ => hspace
    | cons c cs => exact id
  · rfl
  · rw [List.dropWhile_append]
    cases cs.dropWhile isIdentifierRest with
    | nil => simp [hspace]
    | cons c cs => rfl

theorem blank_head (h : Extends cs ds) (hblank : cs.head?.all isBlank) : ds.head?.all isBlank := by
  rcases h with rfl | ⟨more, rfl⟩
  · exact hblank
  · cases cs with
    | nil => exact show isBlank ' ' by decide
    | cons c cs => exact hblank

private theorem afterPipe (h : Extends cs ds) (hpipe : Words.AfterPipe cs) :
    Words.AfterPipe ds := by
  rcases h with rfl | ⟨more, rfl⟩
  · exact hpipe
  · unfold Words.AfterPipe at hpipe ⊢
    rw [List.dropWhile_append]
    cases hdrop : cs.dropWhile isBlank with
    | nil =>
      rw [hdrop] at hpipe
      cases hpipe
    | cons c cs =>
      rw [hdrop] at hpipe
      exact hpipe

end Extends

end Text

namespace Words

theorem afterPipe_iff {before : List Char} : AfterPipe before ↔
    ∃ blanks far, before = blanks ++ '|' :: far ∧ ∀ c ∈ blanks, Text.isBlank c := by
  constructor
  · intro h
    obtain ⟨far, hfar⟩ := List.head?_eq_some_iff.mp h
    refine ⟨before.takeWhile Text.isBlank, far, ?_, List.all_eq_true.mp List.all_takeWhile⟩
    rw [← hfar, List.takeWhile_append_dropWhile]
  · rintro ⟨blanks, far, rfl, hblanks⟩
    rw [AfterPipe, List.dropWhile_append_of_pos hblanks, List.dropWhile_cons_of_neg (by decide)]
    rfl

end Words

namespace Piece
variable {ps : List Piece} {p : Piece}

def blankOut (ps : List Piece) : List Piece :=
  ps.map fun p => if p.kind.isComment then ⟨.whitespace, [' ']⟩ else p

private theorem blankOut_cons_comment (hp : p.kind.isComment) (ps : List Piece) :
    blankOut (p :: ps) = ⟨.whitespace, [' ']⟩ :: blankOut ps := by
  simp [blankOut, hp]

private theorem blankOut_cons (hp : p.kind.isComment = false) (ps : List Piece) :
    blankOut (p :: ps) = p :: blankOut ps := by
  simp [blankOut, hp]

/-- A piece stands where it did before, or a comment did. -/
theorem blankOut_eq_append {front back : List Piece} (h : blankOut ps = front ++ p :: back) :
    p = ⟨.whitespace, [' ']⟩ ∨ ∃ front' back', ps = front' ++ p :: back' ∧
      p.kind.isComment = false ∧ front = blankOut front' ∧ back = blankOut back' := by
  obtain ⟨front', rest, rfl, rfl, hrest⟩ := List.map_eq_append_iff.mp h
  obtain ⟨q, back', rfl, hq, rfl⟩ := List.map_eq_cons_iff.mp hrest
  split at hq
  next => exact .inl hq.symm
  next hcomment =>
    subst hq
    exact .inr ⟨front', back', rfl, by simpa using hcomment, rfl, rfl⟩

private theorem sound_blankOut (hsound : ∀ p ∈ ps, p.Sound) : ∀ p ∈ blankOut ps, p.Sound := by
  intro p hp
  obtain ⟨q, hq, rfl⟩ := List.mem_map.mp hp
  split
  · exact .space
  · exact hsound q hq

private theorem meaningful_blankOut (ps : List Piece) :
    meaningful (blankOut ps) = meaningful ps := by
  induction ps with
  | nil => rfl
  | cons p ps ih =>
    by_cases hp : p.kind.isComment
    · rw [blankOut_cons_comment hp, meaningful_cons_ignorable rfl,
        meaningful_cons_ignorable (TokenKind.isIgnorable_of_isComment hp), ih]
    · rw [blankOut_cons (by simpa using hp), ← List.singleton_append, meaningful_append, ih,
        ← meaningful_append, List.singleton_append]

/-- What follows a lexeme may start with a blank instead of a comment. -/
theorem follows_blankOut (hsound : ∀ p ∈ ps, p.Sound) :
    Text.Follows (spell ps) (spell (blankOut ps)) := by
  cases ps with
  | nil => exact ⟨fun _ => rfl, fun h => h, fun _ h => .inl h⟩
  | cons p ps =>
    have hp := hsound p List.mem_cons_self
    obtain ⟨c, cs, hchars⟩ := List.exists_cons_of_ne_nil hp.nonempty
    by_cases hcomment : p.kind.isComment
    · have hhides : p.kind.hides := by
        rw [TokenKind.hides_iff]
        exact List.mem_append_left _ (TokenKind.mem_kinds_of_isComment hcomment)
      have hstart := hp.hidden hhides c (by rw [hchars]; rfl)
      rw [blankOut_cons_comment hcomment, spell_cons, spell_cons, hchars]
      refine ⟨by simp, ?_, ?_⟩
      · rintro ⟨⟩
        exact absurd hstart (by decide)
      · rintro d ⟨⟩
        exact .inr rfl
    · rw [blankOut_cons (by simpa using hcomment), spell_cons, spell_cons, hchars]
      exact ⟨by simp, fun h => h, fun _ h => .inl h⟩

section Around
variable {known : List TokenKind}

private theorem extends_ahead (hknown : Literal.kinds ⊆ known) (hspace : .whitespace ∉ known)
    (ps : List Piece) : Text.Extends (ahead known ps) (ahead known (blankOut ps)) := by
  induction ps with
  | nil => exact .inl rfl
  | cons p ps ih =>
    by_cases hcomment : p.kind.isComment
    · have hblank : (Piece.mk .whitespace [' ']).kind ∉ known := hspace
      rw [ahead_cons_known (hknown (TokenKind.mem_kinds_of_isComment hcomment)),
        blankOut_cons_comment hcomment, ahead_cons hblank]
      exact .inr ⟨_, rfl⟩
    · rw [blankOut_cons (by simpa using hcomment)]
      by_cases hp : p.kind ∈ known
      · rw [ahead_cons_known hp, ahead_cons_known hp]
        exact .inl rfl
      · rw [ahead_cons hp, ahead_cons hp]
        exact ih.append_left _

private theorem extends_behind {before before' : List Char} (hknown : Literal.kinds ⊆ known)
    (hspace : .whitespace ∉ known) (ps : List Piece) (h : Text.Extends before before') :
    Text.Extends (behind known before ps) (behind known before' (blankOut ps)) := by
  induction ps generalizing before before' with
  | nil => exact h
  | cons p ps ih =>
    by_cases hcomment : p.kind.isComment
    · have hblank : (Piece.mk .whitespace [' ']).kind ∉ known := hspace
      rw [behind_cons_known (hknown (TokenKind.mem_kinds_of_isComment hcomment)),
        blankOut_cons_comment hcomment, behind_cons hblank]
      exact ih (.inr ⟨before', rfl⟩)
    · rw [blankOut_cons (by simpa using hcomment)]
      by_cases hp : p.kind ∈ known
      · rw [behind_cons_known hp, behind_cons_known hp]
        exact ih (.inl rfl)
      · rw [behind_cons hp, behind_cons hp]
        exact ih (h.append_left _)

/-- What stands behind the end of pieces is spelled by the last of them. -/
theorem exists_behind_eq (known : List TokenKind) (ps : List Piece) : ∃ far run, ps = far ++ run ∧
    (∀ p ∈ run, p.kind ∉ known) ∧ behind known [] ps = (spell run).reverse := by
  induction ps using List.reverseRecOn with
  | nil => exact ⟨[], [], rfl, by simp, rfl⟩
  | append_singleton ps p ih =>
    rw [behind_concat]
    by_cases hp : p.kind ∈ known
    · exact ⟨ps ++ [p], [], by simp, by simp, by simp [hp, spell]⟩
    · obtain ⟨far, run, rfl, hrun, hbehind⟩ := ih
      refine ⟨far, run ++ [p], by simp, ?_, ?_⟩
      · exact List.forall_mem_append.mpr ⟨hrun, List.forall_mem_singleton.mpr hp⟩
      · rw [if_neg hp, hbehind, spell_append, List.reverse_append]
        simp [spell]

end Around

end Piece

namespace Lexer
variable {ps : List Piece}

/-- A stage sees pieces with blanks in the place of comments if it judges the others as before. -/
theorem sees_blankOut {stage : Rule × List TokenKind} (hmem : stage ∈ stages.take 6)
    {known : List TokenKind} (hsees : stage.1.Sees known stage.2 [] ps)
    (halike : ∀ front p back, ps = front ++ p :: back → p.kind ∉ known →
      stage.1.Judges stage.2 (behind known [] front) p (ahead known back) →
        stage.1.Judges stage.2 (behind known [] (blankOut front)) p (ahead known (blankOut back))) :
    stage.1.Sees known stage.2 [] (blankOut ps) := by
  intro front p back heq hp
  rcases blankOut_eq_append heq with rfl | ⟨front', back', hps, -, rfl, rfl⟩
  · exact judges_space hmem _ _
  · exact halike front' p back' hps hp (hsees front' p back' hps hp)

private theorem sees_quotes_blankOut (hsound : ∀ p ∈ ps, p.Sound)
    (h : Literal.quotesAndComments.Sees [] Literal.kinds [] ps) :
    Literal.quotesAndComments.Sees [] Literal.kinds [] (blankOut ps) := by
  refine @sees_blankOut ps (Literal.quotesAndComments, Literal.kinds) (by simp [stages]) [] h ?_
  intro front p back hps _
  rw [ahead_nil, ahead_nil]
  exact Literal.judges_quotes (hsound p (by simp [hps])).nonempty
    (follows_blankOut fun q hq => hsound q (by simp [hps, hq]))

/-- A parameter opens in a piece that is none, and is closed before the next quoted literal. -/
def HoldsParam (ps : List Piece) : Prop :=
  ∃ front p back f b name, ps = front ++ p :: back ∧ p.kind.hides = false ∧
    p.chars = f ++ '$' :: b ∧ b ++ ahead Literal.kinds back = '\x7b' :: name ∧ '\x7d' ∈ name

private theorem sees_params_blankOut_iff (hsound : ∀ p ∈ ps, p.Sound)
    (h : Literal.params.Sees Literal.kinds [.param] [] ps) :
    Literal.params.Sees Literal.kinds [.param] [] (blankOut ps) ↔ ¬HoldsParam (blankOut ps) := by
  constructor
  · rintro hsees ⟨front, p, back, f, b, name, hps, hshows, hchars, hopen, hclose⟩
    have hnot : p.kind ∉ Literal.kinds ++ [.param] := by
      rw [← TokenKind.hides_iff, hshows]
      decide
    rw [List.mem_append, not_or] at hnot
    have hjudges := hsees front p back hps hnot.1
    rw [Rule.Judges, if_neg hnot.2] at hjudges
    exact Literal.params_eq_leave_iff.mp (hjudges f '$' b hchars) ⟨rfl, name, hopen, hclose⟩
  · intro hno
    refine @sees_blankOut ps (Literal.params, [.param]) (by simp [stages]) _ h ?_
    intro front p back hps hp hjudges
    have hsp := hsound p (by simp [hps])
    by_cases hparam : p.kind = .param
    · exact Literal.judges_params hsp.nonempty (fun hne => absurd hparam hne) hjudges
    · have hshows : p.kind.hides = false := by
        rw [← Bool.not_eq_true, TokenKind.hides_iff, List.mem_append]
        simp [hp, hparam]
      have hcomment : p.kind.isComment = false := by
        rw [← Bool.not_eq_true]
        exact fun h => hp (TokenKind.mem_kinds_of_isComment h)
      rw [Rule.Judges, if_neg (by simpa using hparam)]
      intro f c b hchars
      rw [Literal.params_eq_leave_iff]
      rintro ⟨rfl, name, hopen, hclose⟩
      refine hno ⟨blankOut front, p, blankOut back, f, b, name, ?_, hshows, hchars, hopen, hclose⟩
      rw [hps, blankOut, List.map_append, ← blankOut, ← blankOut, blankOut_cons hcomment]

/-- A name after a pipe and blanks is no command. -/
def HoldsCommand (ps : List Piece) : Prop :=
  ∃ far gap p back, ps = far ++ ⟨.pipe, ['|']⟩ :: (gap ++ p :: back) ∧
    (∀ q ∈ gap, q.kind = .whitespace) ∧ p.kind ≠ .command ∧
    p.chars.head?.any Text.isIdentifierStart

/-- An identifier after a pipe and blanks starts its piece, and the pipe is a piece before it. -/
theorem exists_pipe_of_afterPipe {front back : List Piece} {p : Piece}
    (hsound : ∀ q ∈ front ++ p :: back, q.Sound) (hp : p.kind ∉ Literal.kinds ++ [.param])
    {f b : List Char} {c : Char} (hchars : p.chars = f ++ c :: b) (hc : Text.isIdentifierStart c)
    (hpipe : Words.AfterPipe (f.reverse ++ behind (Literal.kinds ++ [.param]) [] front)) :
    f = [] ∧ ∃ far gap, front = far ++ ⟨.pipe, ['|']⟩ :: gap ∧ ∀ q ∈ gap, q.kind = .whitespace := by
  have hsp := hsound p (by simp)
  have hshows {q : Piece} (hq : q.kind ∉ Literal.kinds ++ [.param]) : q.kind.hides = false := by
    rwa [← Bool.not_eq_true, TokenKind.hides_iff]
  obtain ⟨far, run, rfl, hrun, hbehind⟩ := exists_behind_eq (Literal.kinds ++ [.param]) front
  rw [hbehind] at hpipe
  obtain ⟨blanks, rest, heq, hblanks⟩ := Words.afterPipe_iff.mp hpipe
  -- Blanks or a pipe before the identifier would be all of the piece.
  have hblank (hf : ∀ d ∈ f, Text.isBlank d) : f = [] := by
    cases f with
    | nil => rfl
    | cons d f =>
      have hkind : p.kind = .whitespace := by
        refine Decidable.byContradiction fun hne => ?_
        have hd := hsp.starts hne (by rw [hchars]; rfl)
        rw [hf d List.mem_cons_self] at hd
        cases hd
      have hc' := hsp.blank hkind c (by simp [hchars])
      have hnot := Text.isDelimiter_of_isIdentifierRest (Text.isIdentifierRest_of_start hc)
      simp [Text.isDelimiter, hc'] at hnot
  have hf : f = [] := by
    rcases List.append_eq_append_iff.mp heq with ⟨more, rfl, -⟩ | ⟨more, hmore, hrest⟩
    · exact hblank fun d hd => hblanks d (by simp [hd])
    · cases more with
      | nil =>
        rw [List.append_nil] at hmore
        exact hblank fun d hd => hblanks d (by rw [← hmore]; simpa using hd)
      | cons d more =>
        obtain ⟨rfl, -⟩ := List.cons.inj hrest
        have hmem : '|' ∈ f := by
          rw [← List.mem_reverse, hmore]
          simp
        have hmark := hsp.tidy.mark (hshows hp) '|' (by simp [hchars, hmem]) .pipe rfl
        have hlength := congrArg (·.chars.length) hmark
        simp only [hchars, List.length_append, List.length_cons, List.length_nil] at hlength
        have hpos := List.length_pos_of_mem hmem
        omega
  subst hf
  rw [List.reverse_nil, List.nil_append] at heq
  have hspell : spell run = rest.reverse ++ '|' :: blanks.reverse := by
    rw [← List.reverse_reverse (spell run), heq]
    simp
  have hsound' : ∀ q ∈ run, q.Sound := fun q hq => hsound q (by simp [hq])
  obtain ⟨near, gap, rfl, hgap⟩ := exists_pipe (fun q hq => (hsound' q hq).nonempty)
    (fun q hq => ⟨(hsound' q hq).tidy, hshows (hrun q hq)⟩) hspell (by simpa using hblanks)
  exact ⟨rfl, far ++ near, gap, by simp, fun q hq => (hgap q hq).1⟩

private theorem afterPipe_behind {known : List TokenKind} (hpipe : .pipe ∉ known)
    (hspace : .whitespace ∉ known) (far : List Piece) {gap : List Piece}
    (hsound : ∀ q ∈ gap, q.Sound) (hgap : ∀ q ∈ gap, q.kind = .whitespace) :
    Words.AfterPipe (behind known [] (far ++ ⟨.pipe, ['|']⟩ :: gap)) := by
  induction gap using List.reverseRecOn with
  | nil =>
    rw [behind_concat, if_neg hpipe]
    exact Words.afterPipe_iff.mpr ⟨[], _, rfl, by simp⟩
  | append_singleton gap q ih =>
    obtain ⟨hgap, hq⟩ := List.forall_mem_append.mp hgap
    obtain ⟨hsound, hsq⟩ := List.forall_mem_append.mp hsound
    have hkind := hq q List.mem_cons_self
    obtain ⟨blanks, rest, heq, hblanks⟩ := Words.afterPipe_iff.mp (ih hsound hgap)
    rw [← List.cons_append, ← List.append_assoc, behind_concat, if_neg (hkind ▸ hspace), heq]
    refine Words.afterPipe_iff.mpr ⟨q.chars.reverse ++ blanks, rest, by simp, ?_⟩
    refine List.forall_mem_append.mpr ⟨?_, hblanks⟩
    simpa using (hsq q List.mem_cons_self).blank hkind

private theorem sees_commands_blankOut_iff (hsound : ∀ p ∈ ps, p.Sound)
    (h : Words.commands.Sees (Literal.kinds ++ [.param]) [.command] [] ps) :
    Words.commands.Sees (Literal.kinds ++ [.param]) [.command] [] (blankOut ps) ↔
      ¬HoldsCommand (blankOut ps) := by
  constructor
  · rintro hsees ⟨far, gap, p, back, hps, hgap, hcommand, hstart⟩
    have hsound' : ∀ q ∈ blankOut ps, q.Sound := sound_blankOut hsound
    have hsp := hsound' p (by simp [hps])
    obtain ⟨c, b, hchars⟩ := List.exists_cons_of_ne_nil hsp.nonempty
    have hc : Text.isIdentifierStart c := by simpa [hchars] using hstart
    have hp : p.kind ∉ Literal.kinds ++ [.param] := by
      rw [← TokenKind.hides_iff]
      intro hhides
      have hall : ['"', '\'', '/', '$'].all fun d => !Text.isIdentifierStart d := by decide
      have hnot := List.all_eq_true.mp hall c (hsp.hidden hhides c (by rw [hchars]; rfl))
      rw [hc] at hnot
      cases hnot
    rw [← List.cons_append, ← List.append_assoc] at hps
    have hjudges := hsees _ p back hps hp
    rw [Rule.Judges, if_neg (by simpa using hcommand)] at hjudges
    refine Words.commands_eq_leave_iff.mp (hjudges [] c b hchars) ⟨hc, ?_⟩
    exact afterPipe_behind (by decide) (by decide) far (fun q hq => hsound' q (by simp [hps, hq]))
      hgap
  · intro hno
    refine @sees_blankOut ps (Words.commands, [.command]) (by simp [stages]) _ h ?_
    intro front p back hps hp hjudges
    have hsp := hsound p (by simp [hps])
    have hcontinues := (extends_ahead (List.subset_append_left Literal.kinds [.param])
      (by decide) back).continues
    have hbehind := extends_behind (List.subset_append_left Literal.kinds [.param]) (by decide)
      front (.inl rfl : Text.Extends [] [])
    by_cases hcommand : p.kind = .command
    · exact Words.judges_commands hsp.nonempty hcontinues (fun _ => hbehind.afterPipe)
        (fun hne => absurd hcommand hne) hjudges
    · have hcomment : p.kind.isComment = false := by
        rw [← Bool.not_eq_true]
        exact fun h => hp (List.mem_append_left _ (TokenKind.mem_kinds_of_isComment h))
      have hblank : blankOut ps = blankOut front ++ p :: blankOut back := by
        rw [hps, blankOut, List.map_append, ← blankOut, ← blankOut, blankOut_cons hcomment]
      rw [Rule.Judges, if_neg (by simpa using hcommand)]
      intro f c b hchars
      rw [Words.commands_eq_leave_iff]
      rintro ⟨hc, hpipe⟩
      have hsound' := sound_blankOut hsound
      rw [hblank] at hsound'
      obtain ⟨rfl, far, gap, hfront, hgap⟩ := exists_pipe_of_afterPipe hsound' hp hchars hc hpipe
      refine hno ⟨far, gap, p, blankOut back, ?_, hgap, hcommand, by simp [hchars, hc]⟩
      rw [hblank, hfront, List.append_assoc, List.cons_append]

private theorem bounded_blankOut {known : List TokenKind} (hknown : Literal.kinds ⊆ known)
    (hspace : .whitespace ∉ known) {kind : TokenKind} (hkind : kind ≠ .whitespace)
    (h : Bounded known kind ps) : Bounded known kind (blankOut ps) := by
  intro front q back heq hq
  rcases blankOut_eq_append heq with rfl | ⟨front', back', hps, -, rfl, rfl⟩
  · exact absurd hq.symm hkind
  · obtain ⟨hbefore, hafter⟩ := h front' q back' hps hq
    exact ⟨(extends_behind hknown hspace front' (.inl rfl)).blank_head hbefore,
      (extends_ahead hknown hspace back').blank_head hafter⟩

/-- Function names and brackets hang on no more of the text than a blank ends. -/
theorem sees_names_blankOut (hsound : ∀ p ∈ ps, p.Sound) {stage : Rule × List TokenKind}
    (hmem : stage ∈ (stages.take 6).drop 3) {known : List TokenKind}
    (hknown : Literal.kinds ⊆ known) (hspace : .whitespace ∉ known)
    (h : stage.1.Sees known stage.2 [] ps) : stage.1.Sees known stage.2 [] (blankOut ps) := by
  refine sees_blankOut (List.mem_of_mem_drop hmem) h ?_
  intro front p back hps _
  have hne := (hsound p (by simp [hps])).nonempty
  simp only [stages, List.take, List.drop, List.mem_cons, List.not_mem_nil, or_false] at hmem
  rcases hmem with rfl | rfl | rfl
  · exact Words.judges_calls hne (extends_behind hknown hspace front (.inl rfl)).takeWhile_eq
      (extends_ahead hknown hspace back).continues
  · exact Words.judges_single hne
  · exact Words.judges_single hne

/-- The first stages see blanks in the place of comments, unless the blanks join a test for null, a
pipe and a command, or a parameter. -/
theorem seen_blankOut_iff (hsound : ∀ p ∈ ps, p.Sound) (hseen : Seen ps) :
    Seen (blankOut ps) ↔ ¬HoldsTest ends (blankOut ps) ∧ ¬HoldsCommand (blankOut ps) ∧
      ¬HoldsParam (blankOut ps) := by
  have hsound' : ∀ p ∈ blankOut ps, p.Sound := sound_blankOut hsound
  have hparams := sees_params_blankOut_iff hsound (hseen (stages.take 1) _ _ rfl)
  have hcommands := sees_commands_blankOut_iff hsound (hseen (stages.take 2) _ _ rfl)
  constructor
  · intro h
    exact ⟨h.not_holdsTest hsound', hcommands.mp (h (stages.take 2) _ _ rfl),
      hparams.mp (h (stages.take 1) _ _ rfl)⟩
  · rintro ⟨htest, hcommand, hparam⟩
    have hquotes := sees_quotes_blankOut hsound (hseen [] _ _ rfl)
    have hcalls := @sees_names_blankOut ps hsound (Words.calls, [.functionName]) (by simp [stages])
      _ (by decide) (by decide) (hseen (stages.take 3) _ _ rfl)
    have hopen := @sees_names_blankOut ps hsound (.single .openBracket (· == '('), [.openBracket])
      (by simp [stages]) _ (by decide) (by decide) (hseen (stages.take 4) _ _ rfl)
    have hclose := @sees_names_blankOut ps hsound
      (.single .closeBracket (· == ')'), [.closeBracket])
      (by simp [stages]) _ (by decide) (by decide) (hseen (stages.take 5) _ _ rfl)
    have hliterals : SeenBy (stages.take 2) (blankOut ps) :=
      ((seenBy_nil _).concat (Literal.quotesAndComments, Literal.kinds) hquotes).concat
        (Literal.params, [.param]) (hparams.mpr hparam)
    have hnames : SeenBy (stages.take 4) (blankOut ps) :=
      (hliterals.concat (Words.commands, [.command]) (hcommands.mpr hcommand)).concat _ hcalls
    have hbrackets : SeenBy (stages.take 6) (blankOut ps) := (hnames.concat _ hopen).concat _ hclose
    exact seen_of_not_holdsTest hbrackets hsound' htest
      (bounded_blankOut (by decide) (by decide) (by decide) (hseen.bounded_notNull hsound))
      (bounded_blankOut (by decide) (by decide) (by decide) (hseen.bounded_null hsound))

/-- A comment divides the text as a blank does. -/
theorem sift_blankOut (text : List Char) (ps : List Piece) :
    sift text (blankOut ps) = sift text ps := by
  have hspace : (Piece.mk .whitespace [' ']).kind ∉ firstKinds := by
    show TokenKind.whitespace ∉ _
    decide
  induction ps generalizing text with
  | nil => rfl
  | cons p ps ih =>
    by_cases hcomment : p.kind.isComment
    · have hmem := TokenKind.mem_kinds_of_isComment hcomment
      have hk : p.kind ∈ firstKinds :=
        List.mem_append_left _ (List.mem_append_left _ hmem)
      rw [blankOut_cons_comment hcomment, sift_cons hspace, sift_blank (by decide),
        sift_cons_known hk, ih,
        meaningful_cons_ignorable (TokenKind.isIgnorable_of_isComment hcomment)]
      rfl
    · rw [blankOut_cons (by simpa using hcomment)]
      by_cases hk : p.kind ∈ firstKinds
      · rw [sift_cons_known hk, sift_cons_known hk, ih]
      · rw [sift_cons hk, sift_cons hk, ih]

def uncomment (text : String) : String :=
  String.join ((tokens text).map fun t => if t.kind.isComment then " " else t.slice)

private theorem toList_uncomment (text : String) :
    (uncomment text).toList = spell (blankOut (pieces text.toList)) := by
  have hwrite (p : Piece) (t : Token) (h : Places p t) :
      (if t.kind.isComment then " " else t.slice).toList = spell (blankOut [p]) := by
    obtain ⟨hkind, hslice⟩ := h
    rw [hkind, hslice]
    by_cases hp : p.kind.isComment
    · rw [if_pos hp, blankOut_cons_comment hp]
      rfl
    · rw [if_neg hp, blankOut_cons (by simpa using hp)]
      simp [spell, blankOut]
  rw [uncomment, toList_join_tokens hwrite]
  simp [spell, blankOut, List.flatMap_map]

/-- Comments mean nothing, unless a blank in their place makes a test for null, a command or a
parameter of what stands around them. -/
theorem lexemes_uncomment (text : String) :
    lexemes (uncomment text) = lexemes text ↔
      ¬HoldsTest ends (blankOut (pieces text.toList)) ∧
        ¬HoldsCommand (blankOut (pieces text.toList)) ∧
        ¬HoldsParam (blankOut (pieces text.toList)) := by
  have hsound : ∀ p ∈ pieces text.toList, p.Sound := fun p hp => sound_of_mem_pieces hp
  rw [lexemes_eq_iff_seen (toList_uncomment text) (sound_blankOut hsound)
    (sees_quotes_blankOut hsound (sees_quotes _)) (meaningful_blankOut _), sift_blankOut,
    seen_blankOut_iff hsound (seen_pieces _)]
  exact and_iff_left rfl

/-- A comment between a pipe and the name of a command hides the pipe from the name. -/
theorem command_after_comment :
    lexemes (uncomment "| /* c */ where a") ≠ lexemes "| /* c */ where a" := by
  decide +kernel

end Lexer

end PipeQuery
