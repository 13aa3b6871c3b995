import PipeQuery.Proofs.Token.Charset
import PipeQuery.Proofs.Token.Suffix

/-!
Texts in the shape of a date-time are one token. They have no character at which a stage of the
lexer cuts, and their digits keep them from being taken for a keyword.
-/
namespace PipeQuery

open Piece

/-- Characters at which no stage cuts a text that is made of them. -/
def Text.isUncut (c : Char) : Bool := !isDelimiter c && !(['/', '$', '!', 'i', 'I'].contains c)

private theorem Shape.isUncut_of_isDateTime {cs : List Char} (h : isDateTime cs) :
    ∀ c ∈ cs, Text.isUncut c := by
  refine forall_of_isDateTime ?_ (List.all_eq_true.mp (by decide)) h
  exact fun c => Text.of_isDecimal (P := Text.isUncut) (by decide +kernel)

private theorem Shape.exists_decimal_of_isDateTime {cs : List Char} (h : isDateTime cs) :
    ∃ c ∈ cs, Text.isDecimal c := by
  rw [isDateTime] at h
  split at h
  next zone hzone =>
    obtain ⟨subseconds, hseconds, -⟩ := Option.bind_eq_some_iff.mp hzone
    cases cs with
    | nil => cases hseconds
    | cons c cs =>
      refine ⟨c, List.mem_cons_self, ?_⟩
      by_cases hc : Text.isDecimal c
      · exact hc
      · simp [afterSeconds?, afterExactly?, hc] at hseconds
  next => cases h

namespace Lexer

/-- Nothing is found where no stage finds anything. -/
theorem foldl_refine_idle {rules : List Rule} {cs : List Char}
    (h : ∀ rule ∈ rules, rule.split cs = [⟨.unknown, cs⟩]) :
    rules.foldl (fun ps rule => refine rule.split ps) [⟨.unknown, cs⟩] = [⟨.unknown, cs⟩] := by
  induction rules with
  | nil => rfl
  | cons rule rules ih =>
    obtain ⟨hrule, hrules⟩ := List.forall_mem_cons.mp h
    have hidle : refine rule.split [⟨.unknown, cs⟩] = [⟨.unknown, cs⟩] := by
      rw [refine_unknown, hrule]
      rfl
    rw [List.foldl_cons, hidle, ih hrules]

section
variable {cs : List Char} (hne : cs ≠ []) (h : ∀ c ∈ cs, Text.isUncut c)
include h

private theorem not_mem_of_isUncut {d : Char} (hd : Text.isUncut d = false) : d ∉ cs := by
  intro hmem
  rw [h d hmem] at hd
  cases hd

private theorem quiet_of_isUncut : Words.Quiet cs := by
  have hnot {d : Char} (hd : Text.isUncut d = false) (e : Char) : ¬[d, e] <:+: cs :=
    fun hin => not_mem_of_isUncut h hd (hin.subset List.mem_cons_self)
  exact ⟨⟨not_mem_of_isUncut h (by decide), not_mem_of_isUncut h (by decide)⟩,
    hnot (by decide) _, hnot (by decide) _, hnot (by decide) _, not_mem_of_isUncut h (by decide)⟩

omit h in
private theorem split_of_leave {rule : Rule} (hne : cs ≠ [])
    (hrule : ∀ c ∈ cs, ∀ before back, rule before (c :: back) = .leave 0) :
    rule.split cs = [⟨.unknown, cs⟩] := by
  refine Rule.split_of_leave_all hne ?_
  intro front c back heq
  exact hrule c (by simp [heq]) _ _

include hne

private theorem split_quotes : Literal.quotesAndComments.split cs = [⟨.unknown, cs⟩] := by
  refine Rule.split_of_leave_all hne ?_
  intro front c back heq
  have hquote := @Words.Quiet.leave_quotes cs (quiet_of_isUncut h) front back [] c heq (by simp)
    (by simp)
  rw [List.append_nil] at hquote
  exact hquote _

private theorem split_params : Literal.params.split cs = [⟨.unknown, cs⟩] := by
  refine split_of_leave hne ?_
  intro c hc before back
  refine Words.Plain.params_leave ?_ before
  rintro rfl
  exact absurd hc (not_mem_of_isUncut h (by decide))

private theorem split_commands : Words.commands.split cs = [⟨.unknown, cs⟩] :=
  Rule.split_of_leave_all hne fun _ _ back heq => (quiet_of_isUncut h).leave_commands heq back

private theorem split_functionNames : Words.functionNames.split cs = [⟨.unknown, cs⟩] := by
  have hpass := @passes_functionNames cs [] hne (not_mem_of_isUncut h (by decide)) (by simp) []
  rwa [List.append_nil] at hpass

private theorem split_single (kind : TokenKind) {d : Char} (hd : Text.isUncut d = false) :
    (Rule.single kind (· == d)).split cs = [⟨.unknown, cs⟩] := by
  refine split_of_leave hne ?_
  intro c hc before back
  have hcd : c ≠ d := fun heq => not_mem_of_isUncut h hd (heq ▸ hc)
  simp [Rule.single, hcd]

private theorem split_phrase (kind : TokenKind) (word : String) (words : List String) :
    (Words.phrase kind ("is" :: word :: words)).split cs = [⟨.unknown, cs⟩] := by
  refine split_of_leave hne ?_
  intro c hc before back
  have hletter : Text.sameLetter 'i' c = false := by
    rw [← Bool.not_eq_true]
    intro hsame
    rcases Text.eq_of_sameLetter hsame with rfl | rfl
    · exact not_mem_of_isUncut h (by decide) hc
    · exact not_mem_of_isUncut h (by decide) hc
  simp [Words.phrase, Words.afterPhrase?, Words.afterWord?, hletter]

private theorem split_blanks : Words.blanks.split cs = [⟨.unknown, cs⟩] := by
  refine split_of_leave hne ?_
  intro c hc before back
  have huncut := h c hc
  simp only [Text.isUncut, Text.isDelimiter, Bool.and_eq_true, Bool.not_eq_true',
    Bool.or_eq_false_iff] at huncut
  simp [Words.blanks, huncut.1.2]

private theorem split_cutting : ∀ rule ∈ cutting, rule.split cs = [⟨.unknown, cs⟩] := by
  simp only [cutting, List.forall_mem_cons]
  exact ⟨split_quotes hne h, split_params hne h, split_commands hne h, split_functionNames hne h,
    split_single hne h _ (by decide), split_single hne h _ (by decide), split_phrase hne h _ _ _,
    split_phrase hne h _ _ _, split_blanks hne h, split_single hne h _ (by decide),
    split_single hne h _ (by decide), List.forall_mem_nil _⟩

end

theorem pieces_of_isDateTime {cs : List Char} (h : Shape.isDateTime cs) :
    pieces cs = [⟨.dateTime, cs⟩] := by
  obtain ⟨c, hc, hdecimal⟩ := Shape.exists_decimal_of_isDateTime h
  have hne : cs ≠ [] := List.ne_nil_of_mem hc
  have hcut := foldl_refine_idle (split_cutting hne (Shape.isUncut_of_isDateTime h))
  have hkeyword := Words.keyword?_of_isDecimal hc hdecimal
  rw [pieces, if_neg (by simpa using hne), hcut]
  simp [naming, classify, refine, markBetween, hkeyword, h]

end Lexer

end PipeQuery
