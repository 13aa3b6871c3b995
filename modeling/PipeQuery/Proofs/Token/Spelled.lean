import PipeQuery.Proofs.Token.Cutting

/-!
A text that is put together from separate lexemes is cut into these again by the lexer.
-/
namespace PipeQuery

section
open Piece Rule
variable {ps : List Piece}

private theorem TokenKind.not_isBare_of_endsBefore {kind next : TokenKind} (hkind : kind.isBare)
    (h : kind.endsBefore (some next)) : next.isBare = false := by
  cases kind with
  | arith op => simpa [endsBefore] using h
  | relation r => simpa [endsBefore] using h
  | number =>
    have hnext : next = .whitespace ∨ next = .comma ∨ next = .closeBracket := by
      simpa [endsBefore] using h
    rcases hnext with rfl | rfl | rfl <;> rfl
  | _ => cases hkind

/-- Operators and numbers have other lexemes between them. -/
theorem blur_cutKinds (h : Separate none ps) :
    blur IsLexeme.cutKinds ps = ps.map (hide IsLexeme.cutKinds) := by
  induction ps with
  | nil => rfl
  | cons p ps ih =>
    obtain ⟨hp, hends, hps⟩ := h
    rw [blur, List.map_cons, ih hps, hide]
    split
    next => rfl
    next hk =>
      cases ps with
      | nil => rfl
      | cons q ps =>
        have hbare := TokenKind.not_isBare_of_endsBefore (hp.isBare_of_not_mem hk) hends
        have hq : q.kind ∈ IsLexeme.cutKinds := by
          refine Decidable.byContradiction fun hq => ?_
          rw [hps.1.isBare_of_not_mem hq] at hbare
          cases hbare
        rw [List.map_cons, hide, if_pos hq]
        exact @prepend_append_of_kind q [] _ hps.1.kind_ne_unknown p.chars

namespace IsLexeme
variable {p : Piece}

private theorem keyword?_eq_none (h : IsLexeme p) (hk : p.kind.isBare) :
    Words.keyword? p.chars = none := by
  cases h with
  | arith op => cases op <;> decide
  | relation r => cases r <;> decide
  | number shape =>
    obtain ⟨⟨c, hc, hd⟩, -⟩ := Shape.chars_of_isNumber shape
    exact Words.keyword?_of_isDecimal hc hd
  | _ => cases hk

private theorem not_isDateTime (h : IsLexeme p) (hk : p.kind.isBare) :
    Shape.isDateTime p.chars = false := by
  cases h with
  | arith op => cases op <;> decide
  | relation r => cases r <;> decide
  | number shape => exact Shape.not_isDateTime_of_isNumber shape
  | _ => cases hk

private theorem not_isDuration (h : IsLexeme p) (hk : p.kind.isBare) :
    Shape.isDuration p.chars = false := by
  cases h with
  | arith op => cases op <;> decide
  | relation r => cases r <;> decide
  | number shape => exact Shape.not_isDuration_of_isNumber shape
  | _ => cases hk

def arithKinds : List TokenKind := Arith.all.map .arith ++ cutKinds

private theorem arith?_eq (h : IsLexeme p) (hk : p.kind.isBare) :
    Words.arith? p.chars = if p.kind ∈ arithKinds then some p.kind else none := by
  cases h with
  | arith op => cases op <;> decide
  | relation r => cases r <;> decide
  | number shape =>
    obtain ⟨⟨c, hc, hd⟩, -⟩ := Shape.chars_of_isNumber shape
    rw [Words.arith?_of_isDecimal hc hd, if_neg (by simp [arithKinds, cutKinds])]
  | _ => cases hk

def relationKinds : List TokenKind := Relation.all.map .relation ++ arithKinds

private theorem relations_split (h : IsLexeme p) (hk : p.kind ∉ arithKinds) :
    Words.relations.split p.chars = [hide relationKinds p] := by
  cases h with
  | relation r => cases r <;> decide
  | @number cs shape =>
    have hne : cs ≠ [] := (IsLexeme.number shape).chars_ne_nil
    refine split_of_leave_all hne ?_
    rintro front c back rfl
    exact Words.relations_of_isNumeral ((Shape.chars_of_isNumber shape).2 c (by simp)) _ _
  | arith op => cases op <;> exact absurd (by decide) hk
  | _ => simp [arithKinds, cutKinds] at hk

private theorem remaining_eq (h : IsLexeme p) (hk : p.kind ∉ relationKinds) :
    Lexer.remaining p.chars = some p.kind := by
  cases h with
  | number shape => simp [Lexer.remaining, shape]
  | arith op => cases op <;> exact absurd (by decide) hk
  | relation r => cases r <;> exact absurd (by decide) hk
  | _ => simp [relationKinds, arithKinds, cutKinds] at hk

end IsLexeme

private theorem naming_hide (h : Separate none ps) :
    Lexer.naming.foldl (fun qs kindOf? => classify kindOf? qs) (ps.map (hide IsLexeme.cutKinds)) =
      ps.map (hide IsLexeme.arithKinds) := by
  have hbare (p : Piece) (hp : p ∈ ps) (hk : p.kind ∉ IsLexeme.cutKinds) : p.kind.isBare :=
    (h.lexeme hp).isBare_of_not_mem hk
  have hnone (kindOf? : List Char → Option TokenKind)
      (hkind : ∀ p, IsLexeme p → p.kind.isBare → kindOf? p.chars = none) :
      classify kindOf? (ps.map (hide IsLexeme.cutKinds)) = ps.map (hide IsLexeme.cutKinds) := by
    refine classify_hide (List.Subset.refl _) h.kind_ne_unknown fun p hp hk => ?_
    rw [hkind p (h.lexeme hp) (hbare p hp hk), if_neg hk]
  simp only [Lexer.naming, List.foldl_cons, List.foldl_nil]
  rw [hnone _ fun p hp hk => hp.keyword?_eq_none hk,
    hnone _ fun p hp hk => by simp [hp.not_isDateTime hk],
    hnone _ fun p hp hk => by simp [hp.not_isDuration hk]]
  exact classify_hide (List.subset_append_right _ _) h.kind_ne_unknown fun p hp hk =>
    (h.lexeme hp).arith?_eq (hbare p hp hk)

private theorem markBetween_eq_self (h : ∀ p ∈ ps, p.kind ≠ .between) :
    Lexer.markBetween false ps = ps := by
  induction ps with
  | nil => rfl
  | cons p ps ih =>
    obtain ⟨hp, hps⟩ := List.forall_mem_cons.mp h
    rw [Lexer.markBetween, ih hps]
    split
    next hk => exact absurd hk hp
    next => rfl
    next => rfl
    next => rfl
    next => rfl

/-- The lexer finds the lexemes that a text is spelled with. -/
theorem pieces_spell (h : Separate none ps) : Lexer.pieces (spell ps) = ps := by
  have hstart : (if (spell ps).isEmpty then [] else [⟨.unknown, spell ps⟩] : List Piece) =
      blur [] ps := by
    cases ps with
    | nil => rfl
    | cons p ps =>
      have hne : spell (p :: ps) ≠ [] := by simp [spell_cons, h.1.chars_ne_nil]
      rw [blur_run (List.cons_ne_nil p ps) (by simp), if_neg (by simpa using hne)]
  have hrelations : refine Words.relations.split (ps.map (hide IsLexeme.arithKinds)) =
      ps.map (hide IsLexeme.relationKinds) :=
    refine_hide (List.subset_append_right _ _) h.kind_ne_unknown fun p hp hk =>
      (h.lexeme hp).relations_split hk
  have hremaining : classify Lexer.remaining (ps.map (hide IsLexeme.relationKinds)) = ps := by
    rw [classify, List.map_map]
    refine Eq.trans (List.map_congr_left fun p hp => ?_) (List.map_id ps)
    by_cases hk : p.kind ∈ IsLexeme.relationKinds
    · simp [hide, hk, h.kind_ne_unknown p hp]
    · simp [hide, hk, (h.lexeme hp).remaining_eq hk]
  have hwords : classify (fun _ => some .word) ps = ps :=
    (List.map_congr_left fun p hp => if_neg (h.kind_ne_unknown p hp)).trans (List.map_id ps)
  simp only [Lexer.pieces]
  rw [hstart, cutting_spell h, blur_cutKinds h, naming_hide h, hrelations, hremaining,
    markBetween_eq_self fun p hp => (h.lexeme hp).kind_ne_between, hwords]

end

end PipeQuery
