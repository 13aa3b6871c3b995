import PipeQuery.Proofs.Token.Stages

/-!
How far the rules of the lexer look. Whether a rule marks or leaves a lexeme hangs on little of the
text around it: the next character, the identifier that goes on, the nearest character that is no
blank. Where this stays, the rule judges the lexeme as before.
-/
namespace PipeQuery

open Piece

namespace Quoted

/-- The cases of a body that starts with a backslash: it stands last, or hides a character. -/
theorem ne_backslash {c : Char} {cs : List Char} (hlast : c = '\\' → cs = [] → False)
    (hmore : ∀ d ds, c = '\\' → cs = d :: ds → False) : c ≠ '\\' := by
  intro hc
  cases cs with
  | nil => exact hlast hc rfl
  | cons d ds => exact hmore d ds hc rfl

theorem tailLength_cons (quote : Char) {c : Char} (hc : c ≠ '\\') (cs : List Char) :
    tailLength quote (c :: cs) = if c = quote then 1 else 1 + tailLength quote cs := by
  rw [tailLength]
  · rintro rfl
    exact absurd rfl hc
  · rintro d ds rfl
    exact absurd rfl hc

private theorem eq_nil_of_tailLength {quote : Char} {cs : List Char} (h : tailLength quote cs = 0) :
    cs = [] := by
  fun_cases tailLength quote cs <;> simp_all [tailLength]

/-- A literal that ends before the text after it does so whatever follows. -/
theorem tailLength_append {quote : Char} {cs after after' : List Char}
    (hend : after = [] → after' = []) (h : tailLength quote (cs ++ after) = cs.length) :
    tailLength quote (cs ++ after') = cs.length := by
  induction hn : cs.length using Nat.strongRecOn generalizing cs with
  | ind n ih =>
    cases cs with
    | nil =>
      have hnil := eq_nil_of_tailLength h
      subst hn
      rw [hend hnil]
      rfl
    | cons c cs =>
      rw [List.length_cons] at hn
      rw [List.cons_append, List.length_cons] at h
      rw [List.cons_append]
      by_cases hc : c = '\\'
      · subst hc
        cases cs with
        | nil =>
          rw [List.nil_append] at h ⊢
          cases after with
          | nil =>
            rw [hend rfl, ← hn]
            rfl
          | cons d after =>
            rw [tailLength, List.length_nil] at h
            omega
        | cons d cs =>
          rw [List.cons_append, tailLength] at h ⊢
          rw [List.length_cons] at h hn
          rw [ih cs.length (by omega) (by omega) rfl]
          omega
      · rw [tailLength_cons quote hc] at h ⊢
        by_cases hquote : c = quote
        · rw [if_pos hquote] at h ⊢
          omega
        · rw [if_neg hquote] at h ⊢
          rw [ih cs.length (by omega) (by omega) rfl]
          omega

end Quoted

namespace Text

/-- What follows a lexeme that goes on to its last character: nothing still follows if nothing did,
and the next character is the same or a blank. -/
structure Follows (after after' : List Char) : Prop where
  finish : after = [] → after' = []
  line : after.head? = some '\n' → after'.head? = some '\n'
  head : ∀ c, after'.head? = some c → after.head? = some c ∨ c = ' '

theorem Follows.head_ne {after after' : List Char} (h : Follows after after') {c : Char}
    (hc : c ≠ ' ') (hne : after.head? ≠ some c) : after'.head? ≠ some c := by
  intro hhead
  rcases h.head c hhead with heq | heq
  · exact hne heq
  · exact hc heq

private theorem Follows.line_any {after after' : List Char} (h : Follows after after')
    (hstop : after.head?.any (· != '\n') = false) : after'.head?.any (· != '\n') = false := by
  cases after with
  | nil =>
    rw [h.finish rfl]
    rfl
  | cons c after =>
    have hc : c = '\n' := by simpa using hstop
    subst hc
    rw [h.line rfl]
    rfl

private theorem head_append_ne {b after after' : List Char} {c : Char}
    (h : after.head? ≠ some c → after'.head? ≠ some c) (hne : (b ++ after).head? ≠ some c) :
    (b ++ after').head? ≠ some c := by
  cases b with
  | nil => exact h hne
  | cons d b => exact hne

/-- A run goes exactly to the end of a text if it does not go on in the text after it. -/
theorem length_takeWhile_append_iff {q : Char → Bool} {cs after : List Char} :
    ((cs ++ after).takeWhile q).length = cs.length ↔
      (∀ c ∈ cs, q c) ∧ after.head?.any q = false := by
  induction cs with
  | nil =>
    cases after with
    | nil => simp
    | cons d after => by_cases hd : q d <;> simp [hd]
  | cons c cs ih =>
    by_cases hc : q c
    · simp [hc, ih]
    · simp [hc]

/-- A run that ends in a text does so whatever follows. -/
theorem takeWhile_append_of_lt {q : Char → Bool} {cs after : List Char}
    (h : ((cs ++ after).takeWhile q).length < cs.length) (after' : List Char) :
    (cs ++ after').takeWhile q = (cs ++ after).takeWhile q := by
  rw [List.takeWhile_append] at h
  rw [List.takeWhile_append, List.takeWhile_append]
  split at h
  next => rw [List.length_append] at h; omega
  next hne => rw [if_neg hne, if_neg hne]

private theorem length_takeWhile_lt_iff {d : Char} {cs : List Char} :
    (cs.takeWhile (· != d)).length < cs.length ↔ d ∈ cs := by
  induction cs with
  | nil => simp
  | cons c cs ih =>
    by_cases hc : c = d
    · simp [hc]
    · simp [hc, ih, Ne.symm hc]

end Text

namespace Literal
variable {before before' after after' : List Char} {p : Piece}

theorem blockTail_cons {c : Char} {cs : List Char} (h : c = '*' → cs.head? ≠ some '/') :
    blockTail (c :: cs) = 1 + blockTail cs := by
  rw [blockTail]
  rintro ds rfl rfl
  exact h rfl rfl

private theorem eq_nil_of_blockTail {cs : List Char} (h : blockTail cs = 0) : cs = [] := by
  fun_cases blockTail cs <;> simp_all [blockTail]

/-- The end of a block comment stands in it, or there is no text after it. -/
theorem blockTail_append {cs : List Char} (hend : after = [] → after' = [])
    (h : blockTail (cs ++ after) = cs.length) : blockTail (cs ++ after') = cs.length := by
  induction cs with
  | nil =>
    rw [hend (eq_nil_of_blockTail h)]
    rfl
  | cons c cs ih =>
    rw [List.cons_append, List.length_cons] at h ⊢
    by_cases hclose : c = '*' ∧ (cs ++ after).head? = some '/'
    · obtain ⟨rfl, hhead⟩ := hclose
      obtain ⟨rest, hrest⟩ := List.head?_eq_some_iff.mp hhead
      rw [hrest, blockTail] at h
      cases cs with
      | nil => simp at h
      | cons d cs =>
        obtain ⟨rfl, -⟩ := List.cons.inj hrest
        rw [List.length_cons] at h ⊢
        rw [List.cons_append, blockTail]
        exact h
    · have hopen : c = '*' → (cs ++ after).head? ≠ some '/' := fun hc hhead => hclose ⟨hc, hhead⟩
      rw [blockTail_cons hopen] at h
      have htail : blockTail (cs ++ after) = cs.length := by omega
      rw [blockTail_cons ?_, ih htail]
      · omega
      · intro hc
        cases cs with
        | nil => simp [hend (eq_nil_of_blockTail htail)]
        | cons d cs => exact hopen hc

/-- Where a literal or comment starts, or none does. -/
theorem quotesAndComments_eq_leave_iff {c : Char} {cs : List Char} :
    quotesAndComments before (c :: cs) = .leave 0 ↔
      c ≠ '"' ∧ c ≠ '\'' ∧ (c = '/' → cs.head? ≠ some '/' ∧ cs.head? ≠ some '*') := by
  constructor
  · intro h
    refine ⟨?_, ?_, ?_⟩
    · rintro rfl
      cases h
    · rintro rfl
      cases h
    · rintro rfl
      refine ⟨?_, ?_⟩ <;>
      · intro hhead
        obtain ⟨rest, rfl⟩ := List.head?_eq_some_iff.mp hhead
        cases h
  · rintro ⟨hdouble, hsingle, hcomment⟩
    exact quotesAndComments_leave hdouble hsingle hcomment before

/-- A literal or comment ends where it does, and no other starts. -/
theorem judges_quotes (hne : p.chars ≠ []) (h : Text.Follows after after')
    (hjudges : quotesAndComments.Judges kinds before p after) :
    quotesAndComments.Judges kinds before' p after' := by
  unfold Rule.Judges at hjudges ⊢
  split at hjudges
  next hp =>
    rw [if_pos hp]
    obtain ⟨kind, chars⟩ := p
    obtain ⟨c, cs, rfl⟩ := List.exists_cons_of_ne_nil hne
    simp only [List.cons_append, List.length_cons, Nat.add_sub_cancel] at hjudges ⊢
    by_cases hdouble : c = '"'
    · subst hdouble
      obtain ⟨rfl, hlength⟩ := Cut.mark.inj hjudges
      rw [quotesAndComments, Quoted.tailLength_append h.finish hlength]
    by_cases hsingle : c = '\''
    · subst hsingle
      obtain ⟨rfl, hlength⟩ := Cut.mark.inj hjudges
      rw [quotesAndComments, Quoted.tailLength_append h.finish hlength]
    by_cases hcomment : c = '/' → (cs ++ after).head? ≠ some '/' ∧ (cs ++ after).head? ≠ some '*'
    · rw [quotesAndComments_leave hdouble hsingle hcomment] at hjudges
      cases hjudges
    · obtain ⟨rfl, hopen⟩ := Classical.not_imp.mp hcomment
      cases cs with
      | nil =>
        -- A slash that opens a comment is not all of it.
        cases after with
        | nil => simp at hopen
        | cons d after =>
          have hd : d = '/' ∨ d = '*' := by simpa [Decidable.or_iff_not_imp_left] using hopen
          rcases hd with rfl | rfl <;>
          · have hlength := (Cut.mark.inj hjudges).2
            rw [List.length_nil] at hlength
            omega
      | cons d cs =>
        rw [List.cons_append] at hjudges ⊢
        by_cases hline : d = '/'
        · subst hline
          obtain ⟨rfl, hlength⟩ := Cut.mark.inj hjudges
          rw [List.length_cons, Nat.add_comm, Nat.add_right_cancel_iff] at hlength
          obtain ⟨hall, hstop⟩ := Text.length_takeWhile_append_iff.mp hlength
          have hlength' := Text.length_takeWhile_append_iff.mpr ⟨hall, h.line_any hstop⟩
          rw [quotesAndComments, hlength', List.length_cons, Nat.add_comm]
        · have hblock : d = '*' := by simpa [hline] using hopen
          subst hblock
          obtain ⟨rfl, hlength⟩ := Cut.mark.inj hjudges
          rw [List.length_cons] at hlength
          have htail : blockTail (cs ++ after) = cs.length := by omega
          rw [quotesAndComments, blockTail_append h.finish htail, List.length_cons, Nat.add_comm]
  next hp =>
    rw [if_neg hp]
    intro f c b hchars
    obtain ⟨hdouble, hsingle, hcomment⟩ := quotesAndComments_eq_leave_iff.mp (hjudges f c b hchars)
    refine quotesAndComments_leave hdouble hsingle ?_ _
    intro hc
    obtain ⟨hline, hblock⟩ := hcomment hc
    exact ⟨Text.head_append_ne (h.head_ne (by decide)) hline,
      Text.head_append_ne (h.head_ne (by decide)) hblock⟩

/-- A parameter starts with a dollar sign and a brace, if a brace closes it. -/
theorem params_eq_leave_iff {c : Char} {cs : List Char} :
    params before (c :: cs) = .leave 0 ↔
      ¬(c = '$' ∧ ∃ name, cs = '\x7b' :: name ∧ '\x7d' ∈ name) := by
  unfold params
  split
  next name heq =>
    cases heq
    simp only [Text.length_takeWhile_lt_iff]
    split
    next hmem => simp [hmem]
    next hmem => simp [hmem]
  next hnot =>
    refine iff_of_true rfl ?_
    rintro ⟨rfl, name, rfl, -⟩
    exact hnot name rfl

/-- What follows a lexeme may hold less braces than before, but not more. -/
structure Braced (after after' : List Char) : Prop where
  close : '\x7d' ∈ after' → '\x7d' ∈ after
  opens : ∀ name, after' = '\x7b' :: name →
    ∃ name', after = '\x7b' :: name' ∧ ('\x7d' ∈ name → '\x7d' ∈ name')

theorem judges_params (hne : p.chars ≠ []) (h : p.kind ≠ .param → Braced after after')
    (hjudges : params.Judges [.param] before p after) :
    params.Judges [.param] before' p after' := by
  unfold Rule.Judges at hjudges ⊢
  split at hjudges
  next hp =>
    rw [if_pos hp]
    obtain ⟨kind, chars⟩ := p
    obtain ⟨c, cs, rfl⟩ := List.exists_cons_of_ne_nil hne
    simp only [List.cons_append, List.length_cons, Nat.add_sub_cancel] at hjudges ⊢
    by_cases hopen : c = '$' ∧ ∃ name, cs ++ after = '\x7b' :: name ∧ '\x7d' ∈ name
    · obtain ⟨rfl, name, hname, hmem⟩ := hopen
      have hlt := Text.length_takeWhile_lt_iff.mpr hmem
      rw [hname, params] at hjudges
      simp only [hlt, if_true] at hjudges
      obtain ⟨rfl, hlength⟩ := Cut.mark.inj hjudges
      cases cs with
      | nil => simp at hlength
      | cons d cs =>
        rw [List.cons_append] at hname
        obtain ⟨rfl, rfl⟩ := List.cons.inj hname
        rw [List.length_cons] at hlength
        have hend : ((cs ++ after).takeWhile (· != '\x7d')).length < cs.length := by omega
        have hsame := Text.takeWhile_append_of_lt hend after'
        rw [List.cons_append, params]
        simp only [hsame, List.length_append, List.length_cons]
        rw [if_pos (by omega), ← hlength]
    · rw [params_eq_leave_iff.mpr hopen] at hjudges
      cases hjudges
  next hp =>
    rw [if_neg hp]
    obtain ⟨hclose, hopen⟩ := h (by simpa using hp)
    intro f c b hchars
    have hleave := params_eq_leave_iff.mp (hjudges f c b hchars)
    rw [params_eq_leave_iff]
    rintro ⟨rfl, name, hname, hmem⟩
    cases b with
    | nil =>
      obtain ⟨name', rfl, hmem'⟩ := hopen name hname
      exact hleave ⟨rfl, name', rfl, hmem' hmem⟩
    | cons d b =>
      rw [List.cons_append] at hname
      obtain ⟨rfl, rfl⟩ := List.cons.inj hname
      refine hleave ⟨rfl, b ++ after, rfl, ?_⟩
      rw [List.mem_append] at hmem ⊢
      exact hmem.imp_right hclose

end Literal

namespace Words
variable {before before' after after' : List Char} {p : Piece}

def AfterPipe (before : List Char) : Prop := (before.dropWhile Text.isBlank).head? = some '|'

private theorem afterPipe_append (cs : List Char) (h : AfterPipe before' → AfterPipe before)
    (hpipe : AfterPipe (cs ++ before')) : AfterPipe (cs ++ before) := by
  unfold AfterPipe at *
  rw [List.dropWhile_append] at hpipe ⊢
  split at hpipe
  next hnil =>
    rw [if_pos hnil]
    exact h hpipe
  next hnil =>
    rw [if_neg hnil]
    cases hdrop : cs.dropWhile Text.isBlank with
    | nil => simp [hdrop] at hnil
    | cons d ds =>
      rw [hdrop] at hpipe
      exact hpipe

theorem commands_eq_leave_iff {c : Char} {cs : List Char} :
    commands before (c :: cs) = .leave 0 ↔ ¬(Text.isIdentifierStart c ∧ AfterPipe before) := by
  rw [commands, AfterPipe]
  split
  next h => simpa using h
  next h => simpa using h

private theorem commands_eq_mark_iff {c : Char} {cs : List Char} {kind : TokenKind} {more : Nat} :
    commands before (c :: cs) = .mark kind more ↔ Text.isIdentifierStart c ∧ AfterPipe before ∧
      kind = .command ∧ (cs.takeWhile Text.isIdentifierRest).length = more := by
  rw [commands, AfterPipe]
  split
  next h =>
    obtain ⟨hstart, hpipe⟩ : Text.isIdentifierStart c ∧
        (before.dropWhile Text.isBlank).head? = some '|' := by simpa using h
    simp only [hstart, hpipe, Cut.mark.injEq, true_and]
    exact and_congr_left' eq_comm
  next h =>
    refine iff_of_false (by intro heq; cases heq) ?_
    rintro ⟨hstart, hpipe, -⟩
    exact h (by simp [hstart, hpipe])

structure Continues (after after' : List Char) : Prop where
  head : after.head?.any Text.isIdentifierRest = false →
    after'.head?.any Text.isIdentifierRest = false
  name : after'.takeWhile Text.isIdentifierRest = after.takeWhile Text.isIdentifierRest
  call : (after'.dropWhile Text.isIdentifierRest).head? = some '(' ↔
    (after.dropWhile Text.isIdentifierRest).head? = some '('

theorem judges_commands (hne : p.chars ≠ []) (hcontinues : Continues after after')
    (hpipe : p.kind = .command → AfterPipe before → AfterPipe before')
    (hother : p.kind ≠ .command → AfterPipe before' → AfterPipe before)
    (hjudges : commands.Judges [.command] before p after) :
    commands.Judges [.command] before' p after' := by
  unfold Rule.Judges at hjudges ⊢
  split at hjudges
  next hp =>
    rw [if_pos hp]
    obtain ⟨kind, chars⟩ := p
    obtain ⟨c, cs, rfl⟩ := List.exists_cons_of_ne_nil hne
    simp only [List.cons_append, List.length_cons, Nat.add_sub_cancel] at hjudges ⊢
    obtain ⟨hstart, hbefore, rfl, hlength⟩ := commands_eq_mark_iff.mp hjudges
    obtain ⟨hall, hstop⟩ := Text.length_takeWhile_append_iff.mp hlength
    rw [commands_eq_mark_iff]
    exact ⟨hstart, hpipe rfl hbefore, rfl,
      Text.length_takeWhile_append_iff.mpr ⟨hall, hcontinues.head hstop⟩⟩
  next hp =>
    rw [if_neg hp]
    intro f c b hchars
    have hleave := commands_eq_leave_iff.mp (hjudges f c b hchars)
    rw [commands_eq_leave_iff]
    rintro ⟨hstart, hbefore⟩
    exact hleave ⟨hstart, afterPipe_append _ (hother (by simpa using hp)) hbefore⟩

theorem functionNames_cons (before : List Char) (c : Char) (cs : List Char) :
    functionNames before (c :: cs) =
      if Text.isIdentifierStart c then
        if (cs.dropWhile Text.isIdentifierRest).head? == some '(' &&
            (keyword? (c :: cs.takeWhile Text.isIdentifierRest)).isNone then
          .mark .functionName (cs.takeWhile Text.isIdentifierRest).length
        else .leave (cs.takeWhile Text.isIdentifierRest).length
      else .leave 0 := by
  have hcut : cs.drop (cs.takeWhile Text.isIdentifierRest).length =
      cs.dropWhile Text.isIdentifierRest := by
    have hparts : cs.takeWhile Text.isIdentifierRest ++ cs.dropWhile Text.isIdentifierRest = cs :=
      List.takeWhile_append_dropWhile
    nth_rewrite 2 [← hparts]
    exact List.drop_left
  have htake : cs.take (cs.takeWhile Text.isIdentifierRest).length =
      cs.takeWhile Text.isIdentifierRest :=
    (List.prefix_iff_eq_take.mp (List.takeWhile_prefix _)).symm
  simp only [functionNames, hcut, htake]

/-- An identifier is judged by the letters around it. -/
theorem calls_congr
    (hbefore : before'.takeWhile Text.isIdentifierRest = before.takeWhile Text.isIdentifierRest)
    (hafter : Continues after after') (f : List Char) (c : Char) (b : List Char) :
    calls (f ++ before') (c :: (b ++ after')) = calls (f ++ before) (c :: (b ++ after)) := by
  have hunder : (f ++ before').takeWhile Text.isIdentifierRest =
      (f ++ before).takeWhile Text.isIdentifierRest := by
    rw [List.takeWhile_append, List.takeWhile_append, hbefore]
  have hname : (b ++ after').takeWhile Text.isIdentifierRest =
      (b ++ after).takeWhile Text.isIdentifierRest := by
    rw [List.takeWhile_append, List.takeWhile_append, hafter.name]
  have hopen : (((b ++ after').dropWhile Text.isIdentifierRest).head? == some '(') =
      (((b ++ after).dropWhile Text.isIdentifierRest).head? == some '(') := by
    rw [List.dropWhile_append, List.dropWhile_append]
    cases b.dropWhile Text.isIdentifierRest with
    | nil =>
      rw [List.isEmpty_nil, if_pos rfl, if_pos rfl, Bool.eq_iff_iff, beq_iff_eq, beq_iff_eq]
      exact hafter.call
    | cons d ds => rfl
  rw [calls, calls, functionNames_cons, functionNames_cons, hunder, hname, hopen]

theorem judges_calls (hne : p.chars ≠ [])
    (hbefore : before'.takeWhile Text.isIdentifierRest = before.takeWhile Text.isIdentifierRest)
    (hafter : Continues after after') (hjudges : calls.Judges [.functionName] before p after) :
    calls.Judges [.functionName] before' p after' := by
  have hcongr := calls_congr hbefore hafter
  unfold Rule.Judges at hjudges ⊢
  split at hjudges
  next hp =>
    rw [if_pos hp]
    obtain ⟨c, cs, hchars⟩ := List.exists_cons_of_ne_nil hne
    rw [hchars, List.cons_append] at hjudges ⊢
    exact (hcongr [] c cs).trans hjudges
  next hp =>
    rw [if_neg hp]
    intro f c b hchars
    rw [hcongr, hjudges f c b hchars]

theorem judges_single {kind : TokenKind} {q : Char → Bool} (hne : p.chars ≠ [])
    (hjudges : (Rule.single kind q).Judges [kind] before p after) :
    (Rule.single kind q).Judges [kind] before' p after' := by
  unfold Rule.Judges at hjudges ⊢
  obtain ⟨c, cs, hchars⟩ := List.exists_cons_of_ne_nil hne
  split at hjudges
  next hp =>
    rw [if_pos hp]
    rw [hchars] at hjudges ⊢
    exact hjudges
  next hp =>
    rw [if_neg hp]
    exact hjudges

end Words
end PipeQuery
