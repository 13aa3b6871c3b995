import PipeQuery.Proofs.Token.Meaning

/-!
Blanks around pipes and relations. The first stages of the lexer overlook them, but for the tests
for null, which they may set free from the mark at their side. So a text with blanks around its
pipes has the same lexemes as without, unless a test for null stands directly at a pipe.
-/
namespace PipeQuery

open Piece

namespace Text
variable {cs ds : List Char} {c : Char}

def isSign (c : Char) : Bool := ['|', '=', '<', '>', '!'].contains c

private theorem isSign_iff : isSign c ↔ c = '|' ∨ c = '=' ∨ c = '<' ∨ c = '>' ∨ c = '!' := by
  simp [isSign]

private theorem not_isBlank_of_isSign (h : isSign c) : isBlank c = false := by
  rcases isSign_iff.mp h with rfl | rfl | rfl | rfl | rfl <;> decide

private theorem not_isIdentifierRest_of_isSign (h : isSign c) : isIdentifierRest c = false := by
  rcases isSign_iff.mp h with rfl | rfl | rfl | rfl | rfl <;> decide

/-- The second text is the first with some blanks before and after signs. -/
inductive Spread : List Char → List Char → Prop where
  | nil : Spread [] []
  | keep (c : Char) {cs ds : List Char} (h : Spread cs ds) : Spread (c :: cs) (c :: ds)
  | before {c : Char} {cs ds : List Char} (hc : isSign c) (h : Spread (c :: cs) ds) :
    Spread (c :: cs) (' ' :: ds)
  | after {c : Char} {cs ds : List Char} (hc : isSign c) (h : Spread cs ds) :
    Spread (c :: cs) (c :: ' ' :: ds)

namespace Spread

theorem append_left (h : Spread cs ds) (front : List Char) :
    Spread (front ++ cs) (front ++ ds) := by
  induction front with
  | nil => exact h
  | cons c front ih => exact .keep c ih

/-- A run of signs is set between blanks. -/
theorem signs {run : List Char} (hne : run ≠ []) (hrun : ∀ c ∈ run, isSign c) (h : Spread cs ds) :
    Spread (run ++ cs) (' ' :: (run ++ ' ' :: ds)) := by
  have hafter : Spread (run ++ cs) (run ++ ' ' :: ds) := by
    induction run with
    | nil => exact absurd rfl hne
    | cons c run ih =>
      obtain ⟨hc, hrest⟩ := List.forall_mem_cons.mp hrun
      cases run with
      | nil => exact .after hc h
      | cons d run => exact .keep c (ih (by simp) hrest)
  obtain ⟨c, run, rfl⟩ := List.exists_cons_of_ne_nil hne
  exact .before (hrun c List.mem_cons_self) hafter

private theorem follows (h : Spread cs ds) : Follows cs ds := by
  cases h with
  | nil => exact ⟨fun _ => rfl, fun h => h, fun c hc => .inl hc⟩
  | keep c h => exact ⟨by simp, fun h => h, fun d hd => .inl hd⟩
  | @before c cs ds hc h =>
    refine ⟨by simp, ?_, ?_⟩
    · rintro ⟨⟩
      exact absurd hc (by decide)
    · rintro d ⟨⟩
      exact .inr rfl
  | after hc h => exact ⟨by simp, fun h => h, fun d hd => .inl hd⟩

theorem mem_iff (h : Spread cs ds) (hc : c ≠ ' ') : c ∈ ds ↔ c ∈ cs := by
  induction h with
  | nil => rfl
  | keep d _ ih => rw [List.mem_cons, List.mem_cons, ih]
  | before _ _ ih => rw [List.mem_cons, ih, or_iff_right hc]
  | after _ _ ih => rw [List.mem_cons, List.mem_cons, List.mem_cons, ih, or_iff_right hc]

/-- No identifier goes on over a sign or a blank. -/
theorem takeWhile_eq (h : Spread cs ds) :
    ds.takeWhile isIdentifierRest = cs.takeWhile isIdentifierRest := by
  have hspace : isIdentifierRest ' ' = false := by decide
  induction h with
  | nil => rfl
  | keep c _ ih => rw [List.takeWhile_cons, List.takeWhile_cons, ih]
  | before hc _ _ => simp [hspace, not_isIdentifierRest_of_isSign hc]
  | after hc _ _ => simp [not_isIdentifierRest_of_isSign hc]

private theorem call_iff (h : Spread cs ds) : (ds.dropWhile isIdentifierRest).head? = some '(' ↔
    (cs.dropWhile isIdentifierRest).head? = some '(' := by
  have hspace : isIdentifierRest ' ' = false := by decide
  induction h with
  | nil => rfl
  | keep c _ ih =>
    by_cases hc : isIdentifierRest c
    · rw [List.dropWhile_cons_of_pos hc, List.dropWhile_cons_of_pos hc]
      exact ih
    · rw [List.dropWhile_cons_of_neg hc, List.dropWhile_cons_of_neg hc]
      rfl
  | @before c cs ds hc _ _ =>
    have hopen : c ≠ '(' := by
      rintro rfl
      exact absurd hc (by decide)
    simp [hspace, not_isIdentifierRest_of_isSign hc, hopen]
  | after hc _ _ => simp [not_isIdentifierRest_of_isSign hc]

private theorem braced (h : Spread cs ds) : Literal.Braced cs ds := by
  refine ⟨(h.mem_iff (by decide)).mp, ?_⟩
  rintro name rfl
  cases h with
  | keep c h => exact ⟨_, rfl, (h.mem_iff (by decide)).mp⟩
  | after hc h => exact absurd hc (by decide)

theorem continues (h : Spread cs ds) : Words.Continues cs ds := by
  refine ⟨?_, h.takeWhile_eq, h.call_iff⟩
  cases h with
  | nil => exact id
  | keep c h => exact id
  | before hc h => exact fun _ => show isIdentifierRest ' ' = false by decide
  | after hc h => exact id

theorem afterPipe_iff (h : Spread cs ds) : Words.AfterPipe ds ↔ Words.AfterPipe cs := by
  have hspace : isBlank ' ' := by decide
  unfold Words.AfterPipe
  induction h with
  | nil => rfl
  | keep c _ ih =>
    by_cases hc : isBlank c
    · rw [List.dropWhile_cons_of_pos hc, List.dropWhile_cons_of_pos hc]
      exact ih
    · rw [List.dropWhile_cons_of_neg hc, List.dropWhile_cons_of_neg hc]
      rfl
  | before _ _ ih =>
    rw [List.dropWhile_cons_of_pos hspace]
    exact ih
  | after hc _ _ => simp [not_isBlank_of_isSign hc]

theorem blank_head (h : Spread cs ds) (hblank : cs.head?.all isBlank) : ds.head?.all isBlank := by
  cases h with
  | nil => exact hblank
  | keep c h => exact hblank
  | before hc h => exact show isBlank ' ' by decide
  | after hc h => exact hblank

end Spread

end Text

namespace Lexer

/-- Blanks around signs do not change what a rule says of a lexeme between them. -/
def Overlooks (rule : Rule) (kinds : List TokenKind) : Prop :=
  ∀ before before' p after after', p.chars ≠ [] → Text.Spread before before' →
    Text.Spread after after' → rule.Judges kinds before p after → rule.Judges kinds before' p after'

private theorem overlooks_of_mem_stages : ∀ stage ∈ stages.take 6, Overlooks stage.1 stage.2 := by
  have hsingle (kind : TokenKind) (q : Char → Bool) : Overlooks (.single kind q) [kind] :=
    fun _ _ _ _ _ hne _ _ => Words.judges_single hne
  simp only [stages, List.take, List.forall_mem_cons]
  refine ⟨?_, ?_, ?_, ?_, hsingle _ _, hsingle _ _, by simp⟩
  · exact fun _ _ _ _ _ hne _ hafter => Literal.judges_quotes hne hafter.follows
  · exact fun _ _ _ _ _ hne _ hafter => Literal.judges_params hne fun _ => hafter.braced
  · exact fun _ _ _ _ _ hne hbefore hafter => Words.judges_commands hne hafter.continues
      (fun _ => hbefore.afterPipe_iff.mpr) (fun _ => hbefore.afterPipe_iff.mp)
  · exact fun _ _ _ _ _ hne hbefore hafter =>
      Words.judges_calls hne hbefore.takeWhile_eq hafter.continues

/-- No lexeme of the first stages starts with a sign or a blank. -/
theorem leave_of_isSign : ∀ stage ∈ stages.take 6, ∀ before c cs, Text.isSign c ∨ c = ' ' →
    stage.1 before (c :: cs) = .leave 0 := by
  have hall : ['|', '=', '<', '>', '!', ' '].all fun c =>
      !(['"', '\'', '/', '$', '(', ')'].contains c) && !Text.isIdentifierStart c := by decide
  have hsign {c : Char} (hc : Text.isSign c ∨ c = ' ') :
      c ∉ ['"', '\'', '/', '$', '(', ')'] ∧ Text.isIdentifierStart c = false := by
    have hmem : c ∈ ['|', '=', '<', '>', '!', ' '] := by simpa [Text.isSign_iff, or_assoc] using hc
    simpa using List.all_eq_true.mp hall c hmem
  simp only [stages, List.take, List.forall_mem_cons]
  refine ⟨?_, ?_, ?_, ?_, ?_, ?_, by simp⟩
  all_goals
    intro before c cs hc
    obtain ⟨hnot, hstart⟩ := hsign hc
    simp only [List.mem_cons, List.not_mem_nil, or_false, not_or] at hnot
  · exact Literal.quotesAndComments_eq_leave_iff.mpr
      ⟨hnot.1, hnot.2.1, fun hslash => absurd hslash hnot.2.2.1⟩
  · exact Literal.params_eq_leave_iff.mpr fun hdollar => hnot.2.2.2.1 hdollar.1
  · exact Words.commands_eq_leave_iff.mpr fun hcommand => by simp [hstart] at hcommand
  · rw [Words.calls, Words.functionNames_cons, hstart]
    simp [Cut.step]
  · simp [Rule.single, hnot.2.2.2.2.1]
  · simp [Rule.single, hnot.2.2.2.2.2]

/-- A piece of signs and blanks is left by the first stages wherever it stands. -/
theorem judges_of_isSign {stage : Rule × List TokenKind} (hmem : stage ∈ stages.take 6) {p : Piece}
    (hp : p.kind ∉ firstKinds) (hchars : ∀ c ∈ p.chars, Text.isSign c ∨ c = ' ')
    (before after : List Char) : stage.1.Judges stage.2 before p after := by
  have hkinds : p.kind ∉ stage.2 :=
    fun h => hp (List.mem_append_left _ (List.mem_flatMap.mpr ⟨stage, hmem, h⟩))
  rw [Rule.Judges, if_neg hkinds]
  intro f c b heq
  exact leave_of_isSign stage hmem _ c _ (hchars c (by rw [heq]; simp))

theorem judges_space {stage : Rule × List TokenKind} (hmem : stage ∈ stages.take 6)
    (before after : List Char) : stage.1.Judges stage.2 before ⟨.whitespace, [' ']⟩ after :=
  judges_of_isSign hmem (by show TokenKind.whitespace ∉ _; decide) (by simp) before after

end Lexer

namespace Piece
variable {apart : TokenKind → Bool} {ps : List Piece} {p : Piece}

def spread (apart : TokenKind → Bool) (ps : List Piece) : List Piece :=
  ps.flatMap fun p => if apart p.kind then [⟨.whitespace, [' ']⟩, p, ⟨.whitespace, [' ']⟩] else [p]

theorem spread_cons_apart (hp : apart p.kind) (ps : List Piece) : spread apart (p :: ps) =
    ⟨.whitespace, [' ']⟩ :: p :: ⟨.whitespace, [' ']⟩ :: spread apart ps := by
  simp [spread, hp]

theorem spread_cons (hp : apart p.kind = false) (ps : List Piece) :
    spread apart (p :: ps) = p :: spread apart ps := by
  simp [spread, hp]

private theorem spread_append (ps qs : List Piece) :
    spread apart (ps ++ qs) = spread apart ps ++ spread apart qs :=
  List.flatMap_append

theorem spread_eq_self (h : ∀ p ∈ ps, apart p.kind = false) : spread apart ps = ps := by
  induction ps with
  | nil => rfl
  | cons p ps ih =>
    obtain ⟨hp, hrest⟩ := List.forall_mem_cons.mp h
    rw [spread_cons hp, ih hrest]

private theorem mem_spread (hp : p ∈ spread apart ps) : p = ⟨.whitespace, [' ']⟩ ∨ p ∈ ps := by
  obtain ⟨q, hq, hp⟩ := List.mem_flatMap.mp hp
  split at hp
  · simp only [List.mem_cons, List.not_mem_nil, or_false] at hp
    rcases hp with rfl | rfl | rfl
    · exact .inl rfl
    · exact .inr hq
    · exact .inl rfl
  · rw [List.mem_singleton.mp hp]
    exact .inr hq

/-- A piece stands where it did before, or at one of the kinds that are set apart. -/
theorem spread_eq_append {front back : List Piece} (h : spread apart ps = front ++ p :: back) :
    p = ⟨.whitespace, [' ']⟩ ∨ (p ∈ ps ∧ apart p.kind) ∨
      ∃ front' back', ps = front' ++ p :: back' ∧ front = spread apart front' ∧
        back = spread apart back' := by
  induction ps generalizing front with
  | nil => simp [spread] at h
  | cons q ps ih =>
    by_cases hq : apart q.kind
    · rw [spread_cons_apart hq] at h
      rcases front with _ | ⟨a, _ | ⟨b, _ | ⟨c, front⟩⟩⟩
      · exact .inl (List.cons.inj h).1.symm
      · obtain ⟨rfl, -⟩ := List.cons.inj (List.cons.inj h).2
        exact .inr (.inl ⟨List.mem_cons_self, hq⟩)
      · exact .inl (List.cons.inj (List.cons.inj (List.cons.inj h).2).2).1.symm
      · simp only [List.cons_append, List.cons.injEq] at h
        obtain ⟨rfl, rfl, rfl, htail⟩ := h
        rcases ih htail with hp | ⟨hmem, hp⟩ | ⟨front', back', rfl, rfl, rfl⟩
        · exact .inl hp
        · exact .inr (.inl ⟨List.mem_cons_of_mem _ hmem, hp⟩)
        · exact .inr (.inr ⟨q :: front', back', rfl, (spread_cons_apart hq _).symm, rfl⟩)
    · have hq' : apart q.kind = false := by simpa using hq
      rw [spread_cons hq'] at h
      cases front with
      | nil =>
        obtain ⟨rfl, rfl⟩ := List.cons.inj h
        exact .inr (.inr ⟨[], ps, rfl, rfl, rfl⟩)
      | cons a front =>
        obtain ⟨rfl, htail⟩ := List.cons.inj h
        rcases ih htail with hp | ⟨hmem, hp⟩ | ⟨front', back', rfl, rfl, rfl⟩
        · exact .inl hp
        · exact .inr (.inl ⟨List.mem_cons_of_mem _ hmem, hp⟩)
        · exact .inr (.inr ⟨q :: front', back', rfl, (spread_cons hq' _).symm, rfl⟩)

/-- The kinds are found after blanks are cut off, and their pieces are written with signs. -/
structure Signs (apart : TokenKind → Bool) (ps : List Piece) : Prop where
  kinds : ∀ kind, apart kind → kind ∉ Lexer.firstKinds ∧ kind.isIgnorable = false
  signs : ∀ p ∈ ps, apart p.kind → ∀ c ∈ p.chars, Text.isSign c
  delimits : ∀ p ∈ ps, apart p.kind → ∃ c ∈ p.chars, Text.isDelimiter c ∧ Text.isBlank c = false

private theorem Signs.of_subset {qs : List Piece} (h : Signs apart ps) (hsub : qs ⊆ ps) :
    Signs apart qs :=
  ⟨h.kinds, fun p hp => h.signs p (hsub hp), fun p hp => h.delimits p (hsub hp)⟩

theorem Signs.around {front back : List Piece} (h : Signs apart ps)
    (hps : ps = front ++ p :: back) : Signs apart front ∧ Signs apart back := by
  subst hps
  exact ⟨h.of_subset fun q hq => by simp [hq], h.of_subset fun q hq => by simp [hq]⟩

theorem Signs.nonempty (h : Signs apart ps) (hp : p ∈ ps) (hapart : apart p.kind) :
    p.chars ≠ [] := by
  obtain ⟨c, hc, -⟩ := h.delimits p hp hapart
  exact List.ne_nil_of_mem hc

section Around
variable {known : List TokenKind}

private theorem spread_ahead (h : Signs apart ps) (hknown : known ⊆ Lexer.firstKinds) :
    Text.Spread (ahead known ps) (ahead known (spread apart ps)) := by
  have hspace : (Piece.mk .whitespace [' ']).kind ∉ known :=
    fun hmem => absurd (hknown hmem) (by decide)
  induction ps with
  | nil => exact .nil
  | cons p ps ih =>
    have hrest := ih (h.of_subset (List.subset_cons_self p ps))
    by_cases hp : apart p.kind
    · have hk : p.kind ∉ known := fun hmem => (h.kinds _ hp).1 (hknown hmem)
      have hne := h.nonempty List.mem_cons_self hp
      have hsigns := h.signs p List.mem_cons_self hp
      rw [spread_cons_apart hp, ahead_cons hk, ahead_cons hspace, ahead_cons hk, ahead_cons hspace]
      exact hrest.signs hne hsigns
    · rw [spread_cons (by simpa using hp)]
      by_cases hk : p.kind ∈ known
      · rw [ahead_cons_known hk, ahead_cons_known hk]
        exact .nil
      · rw [ahead_cons hk, ahead_cons hk]
        exact hrest.append_left p.chars

private theorem spread_behind {before before' : List Char} (h : Signs apart ps)
    (hknown : known ⊆ Lexer.firstKinds) (hbefore : Text.Spread before before') :
    Text.Spread (behind known before ps) (behind known before' (spread apart ps)) := by
  have hspace : (Piece.mk .whitespace [' ']).kind ∉ known :=
    fun hmem => absurd (hknown hmem) (by decide)
  induction ps generalizing before before' with
  | nil => exact hbefore
  | cons p ps ih =>
    have hrest := h.of_subset (List.subset_cons_self p ps)
    by_cases hp : apart p.kind
    · have hk : p.kind ∉ known := fun hmem => (h.kinds _ hp).1 (hknown hmem)
      have hne := h.nonempty List.mem_cons_self hp
      have hsigns := h.signs p List.mem_cons_self hp
      rw [spread_cons_apart hp, behind_cons hk, behind_cons hspace, behind_cons hk,
        behind_cons hspace]
      exact ih hrest (hbefore.signs (by simpa using hne) (by simpa using hsigns))
    · rw [spread_cons (by simpa using hp)]
      by_cases hk : p.kind ∈ known
      · rw [behind_cons_known hk, behind_cons_known hk]
        exact ih hrest .nil
      · rw [behind_cons hk, behind_cons hk]
        exact ih hrest (hbefore.append_left _)

end Around

end Piece

namespace Lexer
variable {apart : TokenKind → Bool} {ps : List Piece}

/-- The stages before the tests for null see the pieces between blanks as without them. -/
theorem sees_spread (hsigns : Signs apart ps) (hsound : ∀ p ∈ ps, p.Sound)
    {done todo : List (Rule × List TokenKind)} {stage : Rule × List TokenKind}
    (hstages : stages.take 6 = done ++ stage :: todo)
    (hsees : stage.1.Sees (kindsOf done) stage.2 [] ps) :
    stage.1.Sees (kindsOf done) stage.2 [] (spread apart ps) := by
  have hmem : stage ∈ stages.take 6 := hstages ▸ List.mem_append_right _ List.mem_cons_self
  have hknown : kindsOf done ⊆ firstKinds := by
    have hsub : earlyKinds ⊆ firstKinds := List.subset_append_left _ _
    rw [earlyKinds, hstages, kindsOf, List.flatMap_append] at hsub
    exact fun kind hkind => hsub (List.mem_append_left _ hkind)
  intro front p back hspread hp
  rcases spread_eq_append hspread with rfl | ⟨hin, hapart⟩ | ⟨front', back', hps, rfl, rfl⟩
  · exact judges_space hmem _ _
  · exact judges_of_isSign hmem (hsigns.kinds _ hapart).1
      (fun c hc => .inl (hsigns.signs p hin hapart c hc)) _ _
  · obtain ⟨hfront, hback⟩ := hsigns.around hps
    exact overlooks_of_mem_stages stage hmem _ _ p _ _ (hsound p (by simp [hps])).nonempty
      (spread_behind hfront hknown .nil) (spread_ahead hback hknown) (hsees front' p back' hps hp)

/-- Blanks put around signs leave the tests for null between blanks or ends. -/
theorem bounded_spread (hsigns : Signs apart ps) {known : List TokenKind}
    (hknown : known ⊆ firstKinds) {kind : TokenKind} (hkind : kind ∈ [.isNotNull, .isNull])
    (h : Bounded known kind ps) : Bounded known kind (spread apart ps) := by
  have hfirst : kind ∈ firstKinds := List.mem_append_right _ hkind
  intro front q back hspread hq
  rcases spread_eq_append hspread with rfl | ⟨hin, hapart⟩ | ⟨front', back', hps, rfl, rfl⟩
  · cases hq
    exact absurd hkind (by decide)
  · exact absurd hfirst (hq ▸ (hsigns.kinds _ hapart).1)
  · obtain ⟨hbefore, hafter⟩ := h front' q back' hps hq
    obtain ⟨hfront, hback⟩ := hsigns.around hps
    exact ⟨(spread_behind hfront hknown .nil).blank_head hbefore,
      (spread_ahead hback hknown).blank_head hafter⟩

theorem sound_spread (hsound : ∀ p ∈ ps, p.Sound) : ∀ p ∈ spread apart ps, p.Sound := by
  intro p hp
  rcases mem_spread hp with rfl | hp
  · exact .space
  · exact hsound p hp

/-- The first stages see the pieces between blanks as without them, unless the blanks set a test for
null free. -/
theorem seen_spread_iff (hsigns : Signs apart ps) (hsound : ∀ p ∈ ps, p.Sound) (hseen : Seen ps) :
    Seen (spread apart ps) ↔ ¬HoldsTest ends (spread apart ps) := by
  have hsound' : ∀ p ∈ spread apart ps, p.Sound := sound_spread hsound
  constructor
  · exact fun h => h.not_holdsTest hsound'
  · intro hno
    refine seen_of_not_holdsTest ?_ hsound' hno
      (bounded_spread hsigns (by decide) (by simp) (hseen.bounded_notNull hsound))
      (bounded_spread hsigns (by decide) (by simp) (hseen.bounded_null hsound))
    intro done stage todo hstages
    refine sees_spread hsigns hsound hstages
      (hseen done stage (todo ++ (stages.take 8).drop 6) ?_)
    calc stages.take 8 = stages.take 6 ++ (stages.take 8).drop 6 := rfl
      _ = done ++ stage :: (todo ++ (stages.take 8).drop 6) := by
        rw [hstages, List.append_assoc, List.cons_append]

namespace LooseTest
variable {test : List Piece}

/-- What a loose test spells has no delimiters but the blanks between its words. -/
theorem exists_spell_eq (h : LooseTest test) : ∃ c front d, Text.isBlank c = false ∧
    Text.isBlank d = false ∧ (spell test).head? = some c ∧ spell test = front ++ [d] ∧
    ∀ c ∈ spell test, Text.isDelimiter c → Text.isBlank c := by
  obtain ⟨words, hmem, hspells⟩ := List.any_eq_true.mp h.spells
  have hphrase : Words.afterPhrase? words.2 (spell test) = some [] := by simpa using hspells
  obtain ⟨hne, -, hletters⟩ := Words.tests_words hmem
  obtain ⟨front, d, hlast, hd, hfront⟩ := Words.exists_of_afterPhrase? hne hletters hphrase
  obtain ⟨c, rest, hfirst, hc, -⟩ := Words.letters_of_test hmem hphrase
  have hblank : Text.isBlank c = false := by
    rw [← Bool.not_eq_true]
    intro hblank
    rw [Words.not_sameLetter_of_isBlank (by simp) hblank] at hc
    cases hc
  have hd' : Text.isBlank d = false := by
    simp only [Text.isDelimiter, Bool.or_eq_false_iff] at hd
    exact hd.2
  refine ⟨c, front, d, hblank, hd', by rw [hfirst]; rfl, hlast, ?_⟩
  intro e he hdelimiter
  rw [hlast] at he
  rcases List.mem_append.mp he with he | he
  · exact hfront e he hdelimiter
  · rw [List.mem_singleton.mp he, hd] at hdelimiter
    cases hdelimiter

private theorem not_apart (h : LooseTest test) (hsigns : Signs apart ps) {p : Piece} (hp : p ∈ test)
    (hps : p ∈ ps) : apart p.kind = false := by
  obtain ⟨-, -, -, -, -, -, -, hdelimits⟩ := h.exists_spell_eq
  rw [← Bool.not_eq_true]
  intro hapart
  obtain ⟨c, hc, hdelimiter, hblank⟩ := hsigns.delimits p hps hapart
  have hmem : c ∈ spell test := List.mem_flatMap.mpr ⟨p, hp, hc⟩
  rw [hdelimits c hmem hdelimiter] at hblank
  cases hblank

end LooseTest

section Ends
variable {ends : TokenKind → Bool}

private theorem getLast_spread_iff (hspace : ends .whitespace) :
    (∀ p, (spread apart ps).getLast? = some p → ends p.kind) ↔
      ∀ p, ps.getLast? = some p → ends p.kind || apart p.kind := by
  rcases List.eq_nil_or_concat ps with rfl | ⟨ps, p, rfl⟩
  · simp [spread]
  · rw [List.concat_eq_append, spread_append]
    by_cases hp : apart p.kind
    · rw [spread_cons_apart hp]
      simp [hp, hspace, spread]
    · rw [spread_cons (by simpa using hp)]
      simp [hp, spread]

private theorem head_spread_iff (hspace : ends .whitespace) :
    (∀ p, (spread apart ps).head? = some p → ends p.kind) ↔
      ∀ p, ps.head? = some p → ends p.kind || apart p.kind := by
  cases ps with
  | nil => simp [spread]
  | cons p ps =>
    by_cases hp : apart p.kind
    · rw [spread_cons_apart hp]
      simp [hp, hspace]
    · rw [spread_cons (by simpa using hp)]
      simp [hp]

end Ends

/-- Where the pieces of a loose test stand between blanks that were put in, they stood together
before. -/
theorem exists_of_spread_eq (hsigns : Signs apart ps) (hsound : ∀ p ∈ ps, p.Sound)
    {front test back : List Piece} (h : spread apart ps = front ++ test ++ back)
    (hloose : LooseTest test) : ∃ front' back', ps = front' ++ test ++ back' ∧
      front = spread apart front' ∧ back = spread apart back' := by
  obtain ⟨c, first, d, hc, hd, hhead, hlast, -⟩ := hloose.exists_spell_eq
  have hne : ∀ p ∈ test, p.chars ≠ [] := fun p hp =>
    (sound_spread hsound p (by rw [h]; simp [hp])).nonempty
  -- A blank that was put in is neither the first nor the last piece of the test.
  have hfirst (p : Piece) (rest : List Piece) (heq : test = p :: rest) :
      p ≠ ⟨.whitespace, [' ']⟩ := by
    rintro rfl
    rw [heq, spell_cons] at hhead
    cases hhead
    exact absurd hc (by decide)
  have hfinal (p : Piece) (rest : List Piece) (heq : test = rest ++ [p]) :
      p ≠ ⟨.whitespace, [' ']⟩ := by
    rintro rfl
    rw [heq, spell_append] at hlast
    obtain ⟨-, hsame⟩ := List.append_inj' hlast rfl
    cases hsame
    exact absurd hd (by decide)
  have hnot (p : Piece) (hp : p ∈ test) : ¬(p ∈ ps ∧ apart p.kind) := by
    rintro ⟨hps, hapart⟩
    rw [hloose.not_apart hsigns hp hps] at hapart
    cases hapart
  cases test with
  | nil => cases hhead
  | cons p rest =>
    rw [List.append_assoc, List.cons_append] at h
    rcases spread_eq_append h with hspace | hapart | ⟨front', back', hps, rfl, hback⟩
    · exact absurd hspace (hfirst p rest rfl)
    · exact absurd hapart (hnot p List.mem_cons_self)
    rcases List.eq_nil_or_concat rest with rfl | ⟨middle, q, rfl⟩
    · exact ⟨front', back', by simp [hps], rfl, hback⟩
    · rw [List.concat_eq_append] at *
      rw [List.append_assoc, List.singleton_append] at hback
      rcases spread_eq_append hback.symm with
        hspace | ⟨hmem, hapart⟩ | ⟨middle', back'', rfl, rfl, rfl⟩
      · exact absurd hspace (hfinal q (p :: middle) rfl)
      · exact absurd ⟨by simp [hps, hmem], hapart⟩ (hnot q (by simp))
      · have hkeep : ∀ r ∈ middle', apart r.kind = false := by
          intro r hr
          have hin : r ∈ spread apart middle' := by
            refine List.mem_flatMap.mpr ⟨r, hr, ?_⟩
            split <;> simp
          rw [← Bool.not_eq_true]
          exact fun hapart => hnot r (by simp [hin]) ⟨by simp [hps, hr], hapart⟩
        rw [spread_eq_self hkeep]
        exact ⟨front', back'', by simp [hps], rfl, rfl⟩

/-- Blanks set a test free where it stood at one of the kinds that are set apart. -/
theorem holdsTest_spread_iff (hsigns : Signs apart ps) (hsound : ∀ p ∈ ps, p.Sound) :
    HoldsTest ends (spread apart ps) ↔ HoldsTest (fun kind => ends kind || apart kind) ps := by
  have hspace : ends .whitespace := by decide
  constructor
  · rintro ⟨front, test, back, hps, hloose, hfront, hback⟩
    obtain ⟨front', back', rfl, rfl, rfl⟩ := exists_of_spread_eq hsigns hsound hps hloose
    exact ⟨front', test, back', rfl, hloose, (getLast_spread_iff hspace).mp hfront,
      (head_spread_iff hspace).mp hback⟩
  · rintro ⟨front, test, back, rfl, hloose, hfront, hback⟩
    have htest : spread apart test = test :=
      spread_eq_self fun p hp => hloose.not_apart hsigns hp (by simp [hp])
    refine ⟨spread apart front, test, spread apart back, ?_, hloose,
      (getLast_spread_iff hspace).mpr hfront, (head_spread_iff hspace).mpr hback⟩
    rw [spread_append, spread_append, htest]

private theorem meaningful_spread (ps : List Piece) :
    meaningful (spread apart ps) = meaningful ps := by
  have hcons (p : Piece) (ps : List Piece) :
      meaningful (p :: ps) = meaningful [p] ++ meaningful ps :=
    meaningful_append [p] ps
  induction ps with
  | nil => rfl
  | cons p ps ih =>
    by_cases hp : apart p.kind
    · have hspace : (Piece.mk .whitespace [' ']).kind.isIgnorable := rfl
      rw [spread_cons_apart hp, meaningful_cons_ignorable hspace, hcons,
        meaningful_cons_ignorable hspace, ih, ← hcons]
    · rw [spread_cons (by simpa using hp), hcons, ih, ← hcons]

def spaceOut (apart : TokenKind → Bool) (text : String) : String :=
  String.join ((tokens text).map fun t => if apart t.kind then " " ++ t.slice ++ " " else t.slice)

private theorem toList_spaceOut (apart : TokenKind → Bool) (text : String) :
    (spaceOut apart text).toList = spell (spread apart (pieces text.toList)) := by
  have hwrite (p : Piece) (t : Token) (h : Places p t) :
      (if apart t.kind then " " ++ t.slice ++ " " else t.slice).toList =
        spell (spread apart [p]) := by
    obtain ⟨hkind, hslice⟩ := h
    rw [hkind, hslice]
    by_cases hp : apart p.kind
    · rw [if_pos hp, spread_cons_apart hp]
      simp [spell, spread]
    · rw [if_neg hp, spread_cons (by simpa using hp)]
      simp [spell, spread]
  rw [spaceOut, toList_join_tokens hwrite, spell, spread, List.flatMap_assoc]
  simp [spell, spread]

/-- Blanks around signs keep what a text means if they set no test for null free, and the later
stages find the same between them. -/
theorem lexemes_spaceOut_iff {text : String} (hsigns : Signs apart (pieces text.toList)) :
    lexemes (spaceOut apart text) = lexemes text ↔
      ¬HoldsTest (fun kind => ends kind || apart kind) (pieces text.toList) ∧
        conclude (sift [] (spread apart (pieces text.toList))) =
          conclude (sift [] (pieces text.toList)) := by
  have hsound : ∀ p ∈ pieces text.toList, p.Sound := fun p hp => sound_of_mem_pieces hp
  have hquotes := @sees_spread apart _ hsigns hsound [] _
    (Literal.quotesAndComments, Literal.kinds) rfl (sees_quotes text.toList)
  rw [lexemes_eq_iff_seen (toList_spaceOut apart text) (sound_spread hsound) hquotes
    (meaningful_spread _), seen_spread_iff hsigns hsound (seen_pieces _),
    holdsTest_spread_iff hsigns hsound]

private theorem signs_pipe {ps : List Piece} (hsound : ∀ p ∈ ps, p.Sound) :
    Signs (· == .pipe) ps := by
  have hchars (p : Piece) (hp : p ∈ ps) (hpipe : (p.kind == .pipe) = true) : p.chars = ['|'] :=
    (hsound p hp).pipe (by simpa using hpipe)
  refine ⟨?_, ?_, ?_⟩
  · intro kind hkind
    obtain rfl : kind = .pipe := by simpa using hkind
    exact ⟨by decide, rfl⟩
  · intro p hp hpipe
    rw [hchars p hp hpipe]
    simp [Text.isSign]
  · intro p hp hpipe
    rw [hchars p hp hpipe]
    exact ⟨'|', by simp, by decide, by decide⟩

/-- A pipe divides the text as a blank does. -/
theorem sift_spread_pipe (hsound : ∀ p ∈ ps, p.Sound) (text : List Char) :
    sift text (spread (· == .pipe) ps) = sift text ps := by
  have hspace : (Piece.mk .whitespace [' ']).kind ∉ firstKinds := by
    show TokenKind.whitespace ∉ _
    decide
  induction ps generalizing text with
  | nil => rfl
  | cons p ps ih =>
    obtain ⟨hp, hrest⟩ := List.forall_mem_cons.mp hsound
    by_cases hpipe : (p.kind == .pipe) = true
    · have hkind : p.kind = .pipe := by simpa using hpipe
      have hk : p.kind ∉ firstKinds := by
        rw [hkind]
        decide
      have hpipe' := sift_pipe [] [' '] (spread (· == .pipe) ps)
      have hblank := @sift_blank ' ' (by decide) [] [] (spread (· == .pipe) ps)
      rw [found_nil, List.nil_append, List.nil_append] at hpipe' hblank
      rw [spread_cons_apart hpipe, sift_cons hspace, sift_cons hk, sift_cons hspace, sift_cons hk,
        hp.pipe hkind, List.append_assoc, List.append_assoc, List.singleton_append,
        sift_blank (by decide), sift_pipe, List.singleton_append, hpipe', hblank, ih hrest]
    · rw [spread_cons (by simpa using hpipe)]
      by_cases hk : p.kind ∈ firstKinds
      · rw [sift_cons_known hk, sift_cons_known hk, ih hrest]
      · rw [sift_cons hk, sift_cons hk, ih hrest]

/-- Pipes need no blanks around them, unless the words of a test for null stand directly at one and
are a lexeme only with blanks there. -/
theorem lexemes_spaceOut_pipe (text : String) :
    lexemes (spaceOut (· == .pipe) text) = lexemes text ↔
      ¬HoldsTest (fun kind => ends kind || kind == .pipe) (pieces text.toList) := by
  have hsound : ∀ p ∈ pieces text.toList, p.Sound := fun p hp => sound_of_mem_pieces hp
  rw [lexemes_spaceOut_iff (signs_pipe hsound), sift_spread_pipe hsound]
  exact and_iff_left rfl

/-- A test for null directly before a pipe is two words. -/
theorem test_before_pipe :
    lexemes (spaceOut (· == .pipe) "x is null|table y") ≠ lexemes "x is null|table y" := by
  decide +kernel

end Lexer

end PipeQuery
