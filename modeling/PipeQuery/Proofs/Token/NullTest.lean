import PipeQuery.Proofs.Token.Phrase

/-!
Tests for null among tokens. The words of a test are one token where blanks, brackets, literals,
names or the ends of the text stand around them, so between such ends no tokens spell a test. That
is all that the rules for these tests see.
-/
namespace PipeQuery

open Piece

theorem TokenKind.hides_iff {kind : TokenKind} :
    kind.hides ↔ kind ∈ Literal.kinds ++ [.param] := by
  cases kind <;> simp [hides, isLiteral, Literal.kinds]

namespace Piece

structure Sound (p : Piece) : Prop where
  nonempty : p.chars ≠ []
  known : p.kind ≠ .unknown
  tidy : p.Tidy
  blank : p.kind = .whitespace → ∀ c ∈ p.chars, Text.isBlank c
  hidden : p.kind.hides → ∀ c, p.chars.head? = some c → c ∈ ['"', '\'', '/', '$']
  test : ∀ test ∈ Words.tests, p.kind = test.1 → Words.afterPhrase? test.2 p.chars = some []
  pipe : p.kind = .pipe → p.chars = ['|']
  comma : p.kind = .comma → p.chars = [',']

namespace Sound
variable {p : Piece}

theorem space : Sound ⟨.whitespace, [' ']⟩ where
  nonempty := by simp
  known := by simp
  tidy := .of_blanks (by simp [show Text.isBlank ' ' by decide]) fun _ _ _ =>
    .inl ⟨rfl, by simp [show Text.isBlank ' ' by decide]⟩
  blank := by simp [show Text.isBlank ' ' by decide]
  hidden := by simp [TokenKind.hides, TokenKind.isLiteral]
  test := by simp [Words.tests]
  pipe := by simp
  comma := by simp

/-- Only blanks start with a blank. -/
theorem starts (h : p.Sound) (hp : p.kind ≠ .whitespace) {c : Char} (hc : p.chars.head? = some c) :
    Text.isBlank c = false := by
  by_cases hhides : p.kind.hides
  · have hall : ['"', '\'', '/', '$'].all fun d => !Text.isBlank d := by decide
    simpa using List.all_eq_true.mp hall c (h.hidden hhides c hc)
  · rw [← Bool.not_eq_true]
    intro hblank
    have hmem := List.mem_of_mem_head? hc
    rcases h.tidy.blank (by simpa using hhides) c hmem hblank with ⟨hkind, -⟩ | ⟨hkind, -⟩
    · exact hp hkind
    · obtain ⟨test, htest, hkind⟩ : ∃ test ∈ Words.tests, p.kind = test.1 := by
        simpa [Words.tests, or_comm] using hkind
      obtain ⟨d, front, hchars, hletter, -⟩ := Words.letters_of_test htest (h.test test htest hkind)
      rw [hchars] at hc
      cases hc
      rw [Words.not_sameLetter_of_isBlank (by simp) hblank] at hletter
      cases hletter

end Sound

end Piece

namespace Lexer
variable {cs : List Char} {front back : List Piece} {p : Piece}

section Sees
variable (cs : List Char)

theorem sees_quotes : Literal.quotesAndComments.Sees [] Literal.kinds [] (pieces cs) :=
  @sees_pieces cs [] _ _ _ rfl

private theorem sees_params : Literal.params.Sees Literal.kinds [.param] [] (pieces cs) :=
  @sees_pieces cs (stages.take 1) _ _ _ rfl

def earlyKinds : List TokenKind := kindsOf (stages.take 6)

private theorem sees_notNull :
    (Words.phrase .isNotNull ["is", "not", "null"]).Sees earlyKinds [.isNotNull] [] (pieces cs) :=
  @sees_pieces cs (stages.take 6) _ _ _ rfl

private theorem sees_null : (Words.phrase .isNull ["is", "null"]).Sees (earlyKinds ++ [.isNotNull])
    [.isNull] [] (pieces cs) :=
  @sees_pieces cs (stages.take 7) _ _ _ rfl

private theorem sees_blanks : Words.blanks.Sees (earlyKinds ++ [.isNotNull, .isNull]) [.whitespace]
    [] (pieces cs) :=
  @sees_pieces cs (stages.take 8) _ _ _ rfl

private theorem sees_pipe : (Rule.single .pipe (· == '|')).Sees
    (earlyKinds ++ [.isNotNull, .isNull, .whitespace]) [.pipe] [] (pieces cs) :=
  @sees_pieces cs (stages.take 9) _ _ _ rfl

private theorem sees_comma : (Rule.single .comma (· == ',')).Sees
    (earlyKinds ++ [.isNotNull, .isNull, .whitespace, .pipe]) [.comma] [] (pieces cs) :=
  @sees_pieces cs (stages.take 10) _ _ _ rfl

end Sees

/-- The tokens of a text are sound. -/
theorem sound_of_mem_pieces (hp : p ∈ pieces cs) : p.Sound := by
  obtain ⟨front, back, heq⟩ := List.append_of_mem hp
  obtain ⟨hne, hknown⟩ := nonempty_known cs p hp
  -- A token was marked by the stage that finds its kind.
  have hmarked {rule : Rule} {known kinds : List TokenKind}
      (hsees : rule.Sees known kinds [] (pieces cs)) (hkinds : p.kind ∈ kinds)
      (hunknown : p.kind ∉ known) :
      rule (behind known [] front) (p.chars ++ ahead known back) =
        .mark p.kind (p.chars.length - 1) := by
    have hjudges := hsees front p back heq hunknown
    rwa [Rule.Judges, if_pos hkinds] at hjudges
  obtain ⟨kind, chars⟩ := p
  obtain ⟨c, chars, rfl⟩ := List.exists_cons_of_ne_nil hne
  simp only [List.cons_append, List.length_cons, Nat.add_sub_cancel] at hmarked
  have hsingle {d : Char} {before after : List Char}
      (hmark : Rule.single kind (· == d) before (c :: (chars ++ after)) = .mark kind chars.length) :
      c :: chars = [d] := by
    rw [Rule.single] at hmark
    split at hmark
    next hc =>
      have hlength := (Cut.mark.inj hmark).2
      rw [List.length_eq_zero_iff.mp hlength.symm, beq_iff_eq.mp hc]
    next => cases hmark
  refine ⟨hne, hknown, tidy_of_mem_pieces hp, ?_, ?_, ?_, ?_, ?_⟩
  · intro hkind
    cases hkind
    have hmark := hmarked (sees_blanks cs) (by simp) (by decide)
    rw [Words.blanks] at hmark
    split at hmark
    next hc =>
      have hlength := Text.length_takeWhile_append_iff.mp (Cut.mark.inj hmark).2
      exact List.forall_mem_cons.mpr ⟨hc, hlength.1⟩
    next => cases hmark
  · rintro hhides _ ⟨⟩
    by_cases hparam : kind = .param
    · subst hparam
      have hmark := hmarked (sees_params cs) (by simp) (by decide)
      have hopen : c = '$' := by
        refine Decidable.byContradiction fun hc => ?_
        rw [Literal.params_eq_leave_iff.mpr fun hstart => hc hstart.1] at hmark
        cases hmark
      simp [hopen]
    · have hmark := hmarked (sees_quotes cs) ?_ (by simp)
      · refine Decidable.byContradiction fun hc => ?_
        simp only [List.mem_cons, not_or] at hc
        obtain ⟨hdouble, hsingle, hslash, -⟩ := hc
        rw [Literal.quotesAndComments_leave hdouble hsingle (fun h => absurd h hslash)] at hmark
        cases hmark
      · have hmem := TokenKind.hides_iff.mp hhides
        exact (List.mem_append.mp hmem).resolve_right (by simpa using hparam)
  · intro test htest hkind
    simp only [Words.tests, List.mem_cons, List.not_mem_nil, or_false] at htest
    rcases htest with rfl | rfl <;> cases hkind
    · have hjudges := sees_notNull cs front _ back heq (by show TokenKind.isNotNull ∉ _; decide)
      exact ((Words.judges_phrase_iff (by simp [Words.tests]) rfl hne).mp hjudges).2.1
    · have hjudges := sees_null cs front _ back heq (by show TokenKind.isNull ∉ _; decide)
      exact ((Words.judges_phrase_iff (by simp [Words.tests]) rfl hne).mp hjudges).2.1
  · intro hkind
    cases hkind
    exact hsingle (hmarked (sees_pipe cs) (by simp) (by decide))
  · intro hkind
    cases hkind
    exact hsingle (hmarked (sees_comma cs) (by simp) (by decide))

end Lexer

namespace Piece
variable {known : List TokenKind} {p : Piece} {ps qs front back : List Piece}

/-- Where a text starts among pieces that do not go beyond its end, it is spelled by some of
them. -/
theorem exists_of_spell_eq {text rest : List Char} (h : spell ps = text ++ rest)
    (hwithin : ∀ front p back, ps = front ++ p :: back →
      (spell front).length < text.length → (spell (front ++ [p])).length ≤ text.length) :
    ∃ qs rs, ps = qs ++ rs ∧ spell qs = text ∧ spell rs = rest := by
  induction ps generalizing text with
  | nil =>
    obtain ⟨rfl, rfl⟩ := List.append_eq_nil_iff.mp h.symm
    exact ⟨[], [], rfl, rfl, rfl⟩
  | cons p ps ih =>
    by_cases hempty : text = []
    · subst hempty
      exact ⟨[], p :: ps, rfl, rfl, h⟩
    · have hpos := List.length_pos_iff.mpr hempty
      have hfirst := hwithin [] p ps rfl hpos
      rw [List.nil_append, show spell [p] = p.chars by simp [spell]] at hfirst
      rw [spell_cons] at h
      obtain ⟨more, rfl, hmore⟩ : ∃ more, text = p.chars ++ more ∧ spell ps = more ++ rest := by
        rcases List.append_eq_append_iff.mp h with ⟨more, htext, hmore⟩ | ⟨more, htext, hmore⟩
        · exact ⟨more, htext, hmore⟩
        · have hlength := congrArg List.length htext
          rw [List.length_append] at hlength
          have hnil : more = [] := List.length_eq_zero_iff.mp (by omega)
          subst hnil
          exact ⟨[], by simpa using htext.symm, by simpa using hmore.symm⟩
      obtain ⟨qs, rs, rfl, rfl, hrs⟩ := ih hmore (by
        rintro front q back rfl hlt
        have hnext := hwithin (p :: front) q back rfl (by simp [spell_cons, hlt])
        simpa [spell_cons] using hnext)
      exact ⟨p :: qs, rs, rfl, rfl, hrs⟩

private theorem spell_takeWhile (known : List TokenKind) (ps : List Piece) :
    spell (ps.takeWhile (·.kind ∉ known)) = ahead known ps := by
  induction ps with
  | nil => rfl
  | cons p ps ih =>
    by_cases hp : p.kind ∈ known
    · rw [List.takeWhile_cons_of_neg (by simpa using hp), ahead_cons_known hp]
      rfl
    · rw [List.takeWhile_cons_of_pos (by simpa using hp), ahead_cons hp, spell_cons, ih]

end Piece

namespace Lexer

def ends (kind : TokenKind) : Bool := kind == .whitespace || earlyKinds.contains kind

/-- Pieces spell a test for null, but are not found to be one. -/
structure LooseTest (test : List Piece) : Prop where
  spells : Words.isTest (spell test)
  kinds : ∀ p ∈ test, p.kind ∉ earlyKinds ++ [.isNotNull, .isNull]

def HoldsTest (ends : TokenKind → Bool) (ps : List Piece) : Prop :=
  ∃ front test back, ps = front ++ test ++ back ∧ LooseTest test ∧
    (∀ p, front.getLast? = some p → ends p.kind) ∧ ∀ p, back.head? = some p → ends p.kind

theorem hides_mem_earlyKinds {kind : TokenKind} (h : kind ∉ earlyKinds) : kind.hides = false := by
  have hsub : Literal.kinds ++ [.param] ⊆ earlyKinds := by decide
  rw [← Bool.not_eq_true, TokenKind.hides_iff]
  exact fun hmem => h (hsub hmem)

section Bounds
variable {known : List TokenKind} {ps : List Piece}

private theorem head_behind (hsub : earlyKinds ⊆ known) (hsound : ∀ p ∈ ps, p.Sound)
    (h : ∀ p, ps.getLast? = some p → ends p.kind) :
    (behind known [] ps).head?.all Text.isBlank := by
  rcases List.eq_nil_or_concat ps with rfl | ⟨ps, p, rfl⟩
  · rfl
  · rw [List.concat_eq_append] at *
    have hends := h p (by simp)
    have hp := hsound p (by simp)
    rw [behind_concat]
    split
    · rfl
    · next hk =>
      have hwhite : p.kind = .whitespace := by
        simp only [ends, Bool.or_eq_true, beq_iff_eq, List.contains_iff_mem] at hends
        exact hends.resolve_right fun hmem => hk (hsub hmem)
      obtain ⟨c, cs, hchars⟩ := List.exists_cons_of_ne_nil (by simpa using hp.nonempty :
        p.chars.reverse ≠ [])
      have hc : c ∈ p.chars := by
        rw [← List.mem_reverse, hchars]
        exact List.mem_cons_self
      simp [hchars, hp.blank hwhite c hc]

private theorem head_ahead (hsub : earlyKinds ⊆ known) (hsound : ∀ p ∈ ps, p.Sound)
    (h : ∀ p, ps.head? = some p → ends p.kind) : (ahead known ps).head?.all Text.isBlank := by
  cases ps with
  | nil => rfl
  | cons p ps =>
    have hends := h p rfl
    have hp := hsound p List.mem_cons_self
    by_cases hk : p.kind ∈ known
    · rw [ahead_cons_known hk]
      rfl
    · have hwhite : p.kind = .whitespace := by
        simp only [ends, Bool.or_eq_true, beq_iff_eq, List.contains_iff_mem] at hends
        exact hends.resolve_right fun hmem => hk (hsub hmem)
      obtain ⟨c, cs, hchars⟩ := List.exists_cons_of_ne_nil hp.nonempty
      rw [ahead_cons hk, hchars]
      simpa using hp.blank hwhite c (by simp [hchars])

private theorem ahead_append {run : List Piece} (h : ∀ p ∈ run, p.kind ∉ known) :
    ahead known (run ++ ps) = spell run ++ ahead known ps := by
  induction run with
  | nil => rfl
  | cons p run ih =>
    obtain ⟨hp, hrest⟩ := List.forall_mem_cons.mp h
    rw [List.cons_append, ahead_cons hp, ih hrest, spell_cons, List.append_assoc]

/-- A rule for a test leaves no loose test between ends. -/
theorem not_looseTest {test : TokenKind × List String} (htest : test ∈ Words.tests)
    (hsub : earlyKinds ⊆ known) (hsup : known ⊆ earlyKinds ++ [.isNotNull, .isNull])
    (hsees : (Words.phrase test.1 test.2).Sees known [test.1] [] ps) (hsound : ∀ p ∈ ps, p.Sound)
    {front words back : List Piece} (hps : ps = front ++ words ++ back)
    (hspells : Words.afterPhrase? test.2 (spell words) = some [])
    (hkinds : ∀ p ∈ words, p.kind ∉ earlyKinds ++ [.isNotNull, .isNull])
    (hfront : ∀ p, front.getLast? = some p → ends p.kind)
    (hback : ∀ p, back.head? = some p → ends p.kind) : False := by
  subst hps
  obtain ⟨hwords, hempty, -⟩ := Words.tests_words htest
  cases words with
  | nil =>
    obtain ⟨c, others, hnil, -⟩ := Words.letters_of_test htest hspells
    cases hnil
  | cons p words =>
    have hunknown : ∀ q ∈ p :: words, q.kind ∉ known := fun q hq hk => hkinds q hq (hsup hk)
    obtain ⟨hp, hrest⟩ := List.forall_mem_cons.mp hunknown
    have hjudges := hsees front p (words ++ back) (by simp) hp
    have hother : p.kind ∉ [test.1] := by
      intro hmem
      refine hkinds p List.mem_cons_self (List.mem_append_right _ ?_)
      simp only [Words.tests, List.mem_cons, List.not_mem_nil, or_false] at htest hmem ⊢
      rcases htest with rfl | rfl
      · exact .inl hmem
      · exact .inr hmem
    rw [Rule.Judges, if_neg hother] at hjudges
    obtain ⟨c, cs, hchars⟩ :=
      List.exists_cons_of_ne_nil (hsound p (by simp)).nonempty
    have hleave := hjudges [] c cs hchars
    rw [List.reverse_nil, List.nil_append, Words.phrase_eq_leave_iff] at hleave
    refine hleave ⟨head_behind hsub (fun q hq => hsound q (by simp [hq])) hfront, ?_⟩
    have hafter := head_ahead hsub (fun q hq => hsound q (by simp [hq])) hback
    have htext : c :: (cs ++ ahead known (words ++ back)) =
        spell (p :: words) ++ ahead known back := by
      rw [ahead_append hrest, spell_cons, hchars]
      simp
    rw [htext, Words.afterPhrase?_append hempty hwords hspells hafter]
    rfl

end Bounds

/-- Where the rules for tests see all tokens, no loose test stands between ends. -/
theorem not_holdsTest {ps : List Piece} (hsound : ∀ p ∈ ps, p.Sound)
    (hnotNull : (Words.phrase .isNotNull ["is", "not", "null"]).Sees earlyKinds [.isNotNull] [] ps)
    (hnull : (Words.phrase .isNull ["is", "null"]).Sees (earlyKinds ++ [.isNotNull]) [.isNull]
      [] ps) : ¬HoldsTest ends ps := by
  rintro ⟨front, words, back, hps, ⟨hspells, hkinds⟩, hfront, hback⟩
  obtain ⟨test, htest, hspells⟩ := List.any_eq_true.mp hspells
  have hmem := htest
  simp only [Words.tests, List.mem_cons, List.not_mem_nil, or_false] at htest
  rcases htest with rfl | rfl
  · exact not_looseTest hmem (List.Subset.refl _) (List.subset_append_left _ _) hnotNull hsound hps
      (by simpa using hspells) hkinds hfront hback
  · exact not_looseTest hmem (List.subset_append_left _ _) (by decide) hnull hsound hps
      (by simpa using hspells) hkinds hfront hback

private theorem mem_of_getElem?_append {front part back : List Char} {i : Nat} {c : Char}
    (h : (front ++ (part ++ back))[i]? = some c) (hfront : front.length ≤ i)
    (hpart : i < front.length + part.length) : c ∈ part := by
  rw [List.getElem?_append_right hfront, List.getElem?_append_left (by omega)] at h
  exact List.mem_of_getElem? h

section Loose
variable {test : TokenKind × List String} {run : List Piece} {text rest : List Char}

/-- No test that has been found stands in the text of another. -/
theorem not_test_within (htest : test ∈ Words.tests) (hsound : ∀ p ∈ run, p.Sound)
    (htext : Words.afterPhrase? test.2 text = some []) (hrun : spell run = text ++ rest)
    (hfirst : ∀ p, run.head? = some p → p.kind ∉ [.isNotNull, .isNull]) {front back : List Piece}
    {p : Piece} (heq : run = front ++ p :: back) (hlt : (spell front).length < text.length) :
    p.kind ∉ [.isNotNull, .isNull] := by
  subst heq
  cases front with
  | nil => exact hfirst p rfl
  | cons q front =>
    intro hkind
    obtain ⟨test', htest', hkind⟩ : ∃ test' ∈ Words.tests, p.kind = test'.1 := by
      simpa [Words.tests] using hkind
    have hp := (hsound p (by simp)).test test' htest' hkind
    obtain ⟨d, others, hchars, hletter, -⟩ := Words.letters_of_test htest' hp
    obtain ⟨c, tail, htext', -, htail⟩ := Words.letters_of_test htest htext
    rw [List.append_nil] at htext'
    subst htext'
    -- The first letter of the test found is a later letter of the text.
    obtain ⟨e, es, hq⟩ := List.exists_cons_of_ne_nil (hsound q (by simp)).nonempty
    rw [List.cons_append, spell_cons, spell_append, spell_cons, hq, hchars] at hrun
    rw [spell_cons, hq] at hlt
    simp only [List.cons_append, List.length_cons, List.length_append, List.cons.injEq] at hrun hlt
    have hmem : d ∈ tail := by
      refine @mem_of_getElem?_append [] tail rest (es ++ spell front).length d ?_ (by simp) ?_
      · rw [List.nil_append, ← hrun.2, ← List.append_assoc,
          List.getElem?_append_right (Nat.le_refl _), Nat.sub_self]
        rfl
      · simp only [List.length_append, List.length_nil]
        omega
    rw [htail d hmem] at hletter
    cases hletter

private theorem last_of_test (htest : test ∈ Words.tests)
    (htext : Words.afterPhrase? test.2 text = some []) :
    ∃ front d, text = front ++ [d] ∧ Text.isBlank d = false := by
  obtain ⟨hne, -, hletters⟩ := Words.tests_words htest
  obtain ⟨front, d, heq, hd, -⟩ := Words.exists_of_afterPhrase? hne hletters htext
  refine ⟨front, d, heq, ?_⟩
  simp only [Text.isDelimiter, Bool.or_eq_false_iff] at hd
  exact hd.2

/-- A test in the text of pieces is spelled by some of them. -/
theorem exists_looseTest (htest : test ∈ Words.tests) (hsound : ∀ p ∈ run, p.Sound)
    (hkinds : ∀ p ∈ run, p.kind ∉ earlyKinds)
    (htext : Words.afterPhrase? test.2 text = some []) (hrest : rest.head?.all Text.isBlank)
    (hrun : spell run = text ++ rest)
    (hfirst : ∀ p, run.head? = some p → p.kind ∉ [.isNotNull, .isNull]) :
    ∃ words others, run = words ++ others ∧ spell words = text ∧ spell others = rest ∧
      ∀ p ∈ words, p.kind ∉ earlyKinds ++ [.isNotNull, .isNull] := by
  have hwithin := @not_test_within _ _ _ _ htest hsound htext hrun hfirst
  obtain ⟨letters, last, hlast, hblank⟩ := last_of_test htest htext
  obtain ⟨words, others, rfl, hwords, hothers⟩ := exists_of_spell_eq hrun (by
    intro front p back heq hlt
    refine Nat.le_of_not_lt fun hbeyond => ?_
    -- The piece would have the last letter of the test in it, and the blank after it.
    have hp := hsound p (by simp [heq])
    have hshows := hides_mem_earlyKinds (hkinds p (by simp [heq]))
    have hnot := hwithin heq hlt
    subst heq hlast
    simp only [spell_append, spell_cons, List.length_append, List.length_cons, List.length_nil,
      show spell [] = [] from rfl, List.append_nil] at hrun hlt hbeyond
    obtain ⟨d, rest, rfl⟩ : ∃ d rest', rest = d :: rest' := by
      cases rest with
      | nil =>
        have hlength := congrArg List.length hrun
        simp only [List.length_append, List.length_cons, List.length_nil] at hlength
        omega
      | cons d rest => exact ⟨d, rest, rfl⟩
    have hd : d ∈ p.chars := by
      refine @mem_of_getElem?_append (spell front) _ (spell back) (letters.length + 1) _ ?_
        (by omega) (by omega)
      rw [hrun, List.append_assoc, List.getElem?_append_right (by simp)]
      simp
    have hmem : last ∈ p.chars := by
      refine @mem_of_getElem?_append (spell front) _ (spell back) letters.length _ ?_
        (by omega) (by omega)
      rw [hrun, List.append_assoc, List.getElem?_append_right (by simp)]
      simp
    rcases hp.tidy.blank hshows d hd (by simpa using hrest) with ⟨-, hall⟩ | ⟨hkind, -⟩
    · rw [hall last hmem] at hblank
      cases hblank
    · exact hnot (by simpa [or_comm] using hkind))
  refine ⟨words, others, rfl, hwords, hothers, ?_⟩
  intro p hp hmem
  obtain ⟨front, back, rfl⟩ := List.append_of_mem hp
  rcases List.mem_append.mp hmem with hmem | hmem
  · exact hkinds p (by simp) hmem
  · refine @hwithin front (back ++ others) p (by simp) ?_ hmem
    have hpos := List.length_pos_iff.mpr (hsound p (by simp)).nonempty
    rw [← hwords, spell_append, spell_cons, List.length_append, List.length_append]
    omega

end Loose

private theorem ends_of_mem {kind : TokenKind} (h : kind ∈ earlyKinds) : ends kind := by
  simp [ends, h]

section Around
variable {known : List TokenKind} {ps front back : List Piece} {p : Piece}

def TestsBounded (known : List TokenKind) (ps : List Piece) : Prop :=
  ∀ front q back, ps = front ++ q :: back → q.kind ∈ known → q.kind ∉ earlyKinds →
    (behind earlyKinds [] front).head?.all Text.isBlank ∧
      (ahead earlyKinds back).head?.all Text.isBlank

/-- What stands before a word after blanks, if no blank is in it. -/
theorem ends_getLast (hsound : ∀ p ∈ ps, p.Sound) (hsub : earlyKinds ⊆ known)
    (hfound : TestsBounded known ps) (hps : ps = front ++ p :: back) (hp : p.kind ∉ known)
    (hstart : p.chars.head?.any Text.isBlank = false)
    (hbefore : (behind known [] front).head?.all Text.isBlank) (q : Piece)
    (hq : front.getLast? = some q) : ends q.kind := by
  obtain ⟨far, rfl⟩ := List.getLast?_eq_some_iff.mp hq
  have hsq := hsound q (by simp [hps])
  by_cases hknown : q.kind ∈ known
  · by_cases hearly : q.kind ∈ earlyKinds
    · exact ends_of_mem hearly
    · -- A test before the word would not stand before a blank.
      obtain ⟨-, hahead⟩ := hfound far q (p :: back) (by simp [hps]) hknown hearly
      obtain ⟨c, cs, hchars⟩ := List.exists_cons_of_ne_nil (hsound p (by simp [hps])).nonempty
      rw [ahead_cons fun hmem => hp (hsub hmem), hchars] at hahead
      simp_all
  · have hshows := hides_mem_earlyKinds fun hmem => hknown (hsub hmem)
    obtain ⟨cs, c, hchars⟩ := List.eq_nil_or_concat q.chars |>.resolve_left hsq.nonempty
    rw [List.concat_eq_append] at hchars
    rw [behind_concat, if_neg hknown, hchars] at hbefore
    have hc : Text.isBlank c := by simpa using hbefore
    rcases hsq.tidy.blank hshows c (by simp [hchars]) hc with ⟨hkind, -⟩ | ⟨-, hlast⟩
    · simp [ends, hkind]
    · rw [hlast c (by simp [hchars])] at hc
      cases hc

/-- What stands after words, if a blank follows them or nothing does. -/
theorem ends_head {words others : List Piece} {rest : List Char} (hsound : ∀ p ∈ ps, p.Sound)
    (hfound : TestsBounded known ps) (hps : ps = front ++ words ++ (others ++ beyond known back))
    (hlast : ∃ cs d, spell words = cs ++ [d] ∧ Text.isBlank d = false)
    (hwords : ∀ p ∈ words, p.kind ∉ earlyKinds) (hothers : spell others = rest)
    (hrest : rest.head?.all Text.isBlank) (q : Piece)
    (hq : (others ++ beyond known back).head? = some q) : ends q.kind := by
  cases others with
  | cons o others =>
    cases hq
    have hso := hsound q (by simp [hps])
    obtain ⟨c, cs, hchars⟩ := List.exists_cons_of_ne_nil hso.nonempty
    rw [spell_cons, hchars] at hothers
    have hkind : q.kind = .whitespace := by
      refine Decidable.byContradiction fun hkind => ?_
      have hc := hso.starts hkind (c := c) (by simp [hchars])
      simp [← hothers, hc] at hrest
    simp [ends, hkind]
  | nil =>
    rw [List.nil_append] at hq hps
    obtain ⟨tail, htail⟩ := List.head?_eq_some_iff.mp hq
    have hknown : q.kind ∈ known := by
      have hnot := List.head?_dropWhile_not (fun p : Piece => decide (p.kind ∉ known)) back
      rw [← beyond, hq] at hnot
      simpa using hnot
    by_cases hearly : q.kind ∈ earlyKinds
    · exact ends_of_mem hearly
    · -- A test after the words would not stand after a blank.
      obtain ⟨hbehind, -⟩ := hfound (front ++ words) q tail (by rw [hps, htail]) hknown hearly
      obtain ⟨cs, d, hspell, hd⟩ := hlast
      rcases List.eq_nil_or_concat words with rfl | ⟨init, t, rfl⟩
      · simp [spell] at hspell
      · rw [List.concat_eq_append] at *
        have hst := hsound t (by simp [hps])
        obtain ⟨ds, e, hchars⟩ := List.eq_nil_or_concat t.chars |>.resolve_left hst.nonempty
        rw [List.concat_eq_append] at hchars
        rw [spell_append, show spell [t] = t.chars by simp [spell], hchars,
          ← List.append_assoc] at hspell
        obtain rfl : e = d := by simpa using (List.append_inj' hspell rfl).2
        rw [← List.append_assoc, behind_concat, if_neg (hwords t (by simp)), hchars] at hbehind
        simp [hd] at hbehind

end Around

/-- Where no loose test stands between ends, the rule for a test leaves what is not of its kind. The
tests that have been found before it stand between blanks or ends. -/
theorem judges_of_not_holdsTest {known : List TokenKind} {test : TokenKind × List String}
    (htest : test ∈ Words.tests) {ps : List Piece} (hsound : ∀ p ∈ ps, p.Sound)
    (hno : ¬HoldsTest ends ps) (hsub : earlyKinds ⊆ known)
    (hfound : TestsBounded known ps)
    (hother : ∀ p ∈ ps, p.kind ∉ known → p.kind ≠ test.1 → p.kind ∈ [.isNotNull, .isNull] →
      ∀ after, Words.afterPhrase? test.2 (p.chars ++ after) = none)
    {front back : List Piece} {p : Piece} (hps : ps = front ++ p :: back) (hp : p.kind ∉ known)
    (hkind : p.kind ≠ test.1) :
    (Words.phrase test.1 test.2).Judges [test.1] (behind known [] front) p (ahead known back) := by
  rw [Rule.Judges, if_neg (by simpa using hkind)]
  intro f c b hchars
  rw [Words.phrase_eq_leave_iff]
  rintro ⟨hbefore, hafter⟩
  obtain ⟨rest, hphrase⟩ := Option.isSome_iff_exists.mp hafter
  obtain ⟨hwords, hempty, -⟩ := Words.tests_words htest
  obtain ⟨text, htext, hspells, hblank⟩ := Words.exists_of_afterPhrase?_eq_some hwords hphrase
  obtain ⟨c', tail, htail, hletter, -⟩ := Words.letters_of_test htest hspells
  have hsp := hsound p (by simp [hps])
  have hshows := hides_mem_earlyKinds fun hmem => hp (hsub hmem)
  obtain rfl : c = c' := by
    rw [htail] at htext
    exact (List.cons.inj htext).1
  have hc : Text.isBlank c = false := by
    rw [← Bool.not_eq_true]
    intro hcblank
    rw [Words.not_sameLetter_of_isBlank (by simp) hcblank] at hletter
    cases hletter
  -- The test starts with the piece.
  obtain rfl : f = [] := by
    rcases List.eq_nil_or_concat f with hf | ⟨g, d, rfl⟩
    · exact hf
    · exfalso
      rw [List.concat_eq_append] at hchars hbefore
      have hd : Text.isBlank d := by simpa using hbefore
      rcases hsp.tidy.blank hshows d (by simp [hchars]) hd with ⟨-, hall⟩ | ⟨htests, -⟩
      · rw [hall c (by simp [hchars])] at hc
        cases hc
      · obtain ⟨test', htest', hkind'⟩ : ∃ test' ∈ Words.tests, p.kind = test'.1 := by
          simpa [Words.tests, or_comm] using htests
        obtain ⟨e, others, heq, -, hothers⟩ :=
          Words.letters_of_test htest' (hsp.test test' htest' hkind')
        have hmem : c ∈ others := by
          rw [hchars, List.append_nil] at heq
          cases g with
          | nil =>
            obtain ⟨-, rfl⟩ := List.cons.inj heq
            exact List.mem_cons_self
          | cons e' g =>
            obtain ⟨-, rfl⟩ := List.cons.inj heq
            simp
        rw [hothers c hmem] at hletter
        cases hletter
  rw [List.nil_append] at hchars
  rw [List.reverse_nil, List.nil_append] at hbefore
  have hahead : p.chars ++ ahead known back = text ++ rest := by
    rw [hchars]
    exact htext
  have hmem : ∀ q ∈ (p :: back).takeWhile (·.kind ∉ known), q ∈ p :: back ∧ q.kind ∉ known := by
    intro q hq
    refine ⟨(List.takeWhile_prefix _).subset hq, ?_⟩
    simpa using List.all_eq_true.mp List.all_takeWhile q hq
  obtain ⟨words, others, hrun, hspell, hrest, hloose⟩ :=
    @exists_looseTest test ((p :: back).takeWhile (·.kind ∉ known)) text rest htest
      (fun q hq => hsound q (by rw [hps]; exact List.mem_append_right _ (hmem q hq).1))
      (fun q hq hearly => (hmem q hq).2 (hsub hearly)) hspells hblank
      (by rw [spell_takeWhile, ahead_cons hp, hahead]) (by
        rw [List.takeWhile_cons_of_pos (by simpa using hp)]
        rintro _ ⟨⟩ htests
        have hnone := hother p (by simp [hps]) hp hkind htests (ahead known back)
        rw [hchars, List.cons_append, hphrase] at hnone
        cases hnone)
  have hparts : ps = front ++ words ++ (others ++ beyond known (p :: back)) := by
    rw [hps, List.append_assoc, ← List.append_assoc words, ← hrun, beyond,
      List.takeWhile_append_dropWhile]
  refine hno ⟨front, words, _, hparts, ⟨?_, hloose⟩, ?_, ?_⟩
  · rw [hspell]
    exact List.any_eq_true.mpr ⟨test, htest, by simp [hspells]⟩
  · exact ends_getLast hsound hsub hfound hps hp (by simp [hchars, hc]) hbefore
  · refine ends_head hsound hfound hparts (hspell ▸ last_of_test htest hspells) ?_ hrest hblank
    exact fun q hq hearly => hloose q hq (List.mem_append_left _ hearly)

def Bounded (known : List TokenKind) (kind : TokenKind) (ps : List Piece) : Prop :=
  ∀ front q back, ps = front ++ q :: back → q.kind = kind →
    (behind known [] front).head?.all Text.isBlank ∧ (ahead known back).head?.all Text.isBlank

section Sees
variable {ps : List Piece}

theorem bounded_of_sees {test : TokenKind × List String} (htest : test ∈ Words.tests)
    {known : List TokenKind} (hknown : test.1 ∉ known) (hsound : ∀ p ∈ ps, p.Sound)
    (hsees : (Words.phrase test.1 test.2).Sees known [test.1] [] ps) :
    Bounded known test.1 ps := by
  intro front q back hps hq
  have hjudges := hsees front q back hps (hq ▸ hknown)
  have hne := (hsound q (by simp [hps])).nonempty
  obtain ⟨hbefore, -, hafter⟩ := (Words.judges_phrase_iff htest hq hne).mp hjudges
  exact ⟨hbefore, hafter⟩

private theorem sees_test {test : TokenKind × List String} (htest : test ∈ Words.tests)
    {known : List TokenKind} (hsound : ∀ p ∈ ps, p.Sound) (hbounded : Bounded known test.1 ps)
    (hother : ∀ front p back, ps = front ++ p :: back → p.kind ∉ known → p.kind ≠ test.1 →
      (Words.phrase test.1 test.2).Judges [test.1] (behind known [] front) p (ahead known back)) :
    (Words.phrase test.1 test.2).Sees known [test.1] [] ps := by
  intro front p back hps hp
  by_cases hkind : p.kind = test.1
  · have hsp := hsound p (by simp [hps])
    obtain ⟨hbefore, hafter⟩ := hbounded front p back hps hkind
    rw [Words.judges_phrase_iff htest hkind hsp.nonempty]
    exact ⟨hbefore, hsp.test test htest hkind, hafter⟩
  · exact hother front p back hps hp hkind

/-- The rules for tests see tokens of which no loose test stands between ends. -/
theorem sees_notNull_of_not_holdsTest (hsound : ∀ p ∈ ps, p.Sound) (hno : ¬HoldsTest ends ps)
    (hbounded : Bounded earlyKinds .isNotNull ps) :
    (Words.phrase .isNotNull ["is", "not", "null"]).Sees earlyKinds [.isNotNull] [] ps := by
  have htest : (.isNotNull, ["is", "not", "null"]) ∈ Words.tests := by simp [Words.tests]
  refine sees_test htest hsound hbounded ?_
  intro front p back hps hp hkind
  refine judges_of_not_holdsTest htest hsound hno (List.Subset.refl _) ?_ ?_ hps hp hkind
  · intro front q back _ hmem hnot
    exact absurd hmem hnot
  · intro q hq _ hne htests after
    have hnull : q.kind = .isNull := by
      rcases List.mem_cons.mp htests with htests | htests
      · exact absurd htests hne
      · simpa using htests
    have hphrase := (hsound q hq).test (.isNull, ["is", "null"]) (by simp [Words.tests]) hnull
    exact Words.afterPhrase?_isNull hphrase after

theorem sees_null_of_not_holdsTest (hsound : ∀ p ∈ ps, p.Sound) (hno : ¬HoldsTest ends ps)
    (hnotNull : Bounded earlyKinds .isNotNull ps)
    (hnull : Bounded (earlyKinds ++ [.isNotNull]) .isNull ps) :
    (Words.phrase .isNull ["is", "null"]).Sees (earlyKinds ++ [.isNotNull]) [.isNull] [] ps := by
  have htest : (.isNull, ["is", "null"]) ∈ Words.tests := by simp [Words.tests]
  refine sees_test htest hsound hnull ?_
  intro front p back hps hp hkind
  refine judges_of_not_holdsTest htest hsound hno (List.subset_append_left _ _) ?_ ?_ hps hp hkind
  · intro front q back heq hmem hnot
    have hq : q.kind = .isNotNull := by
      simpa using (List.mem_append.mp hmem).resolve_left hnot
    exact hnotNull front q back heq hq
  · intro q _ hunknown hne htests
    rcases List.mem_cons.mp htests with htests | htests
    · exact absurd (List.mem_append_right _ (by simp [htests])) hunknown
    · exact absurd (List.mem_singleton.mp htests) hne

end Sees

end Lexer

end PipeQuery
