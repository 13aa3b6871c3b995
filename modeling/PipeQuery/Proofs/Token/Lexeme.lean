import PipeQuery.Proofs.Token.Numeral
import PipeQuery.Proofs.Token.Stage
import PipeQuery.Scalar

/-!
Lexemes of expressions, and which of them may stand side by side without being taken for another.
-/
namespace PipeQuery

inductive IsLexeme : Piece → Prop where
  | quoted {value : List Char} (backslash : '\\' ∉ value) :
    IsLexeme ⟨.singleQuoted, '\'' :: (value.flatMap Expr.escapeQuote ++ ['\''])⟩
  | param {name : List Char} (brace : '\x7d' ∉ name) (double : '"' ∉ name) (single : '\'' ∉ name)
    (comment : ¬['/', '/'] <:+: name) (block : ¬['/', '*'] <:+: name) :
    IsLexeme ⟨.param, '$' :: '\x7b' :: (name ++ ['\x7d'])⟩
  | functionName {c : Char} {cs : List Char} (start : Text.isIdentifierStart c)
    (rest : ∀ x ∈ cs, Text.isIdentifierRest x) (keyword : Words.keyword? (c :: cs) = none) :
    IsLexeme ⟨.functionName, c :: cs⟩
  | openBracket : IsLexeme ⟨.openBracket, ['(']⟩
  | closeBracket : IsLexeme ⟨.closeBracket, [')']⟩
  | blank : IsLexeme ⟨.whitespace, [' ']⟩
  | comma : IsLexeme ⟨.comma, [',']⟩
  | arith (op : Arith) : IsLexeme ⟨.arith op, op.symbol.toList⟩
  | relation (r : Relation) : IsLexeme ⟨.relation r, r.symbol.toList⟩
  | number {cs : List Char} (shape : Shape.isNumber cs) : IsLexeme ⟨.number, cs⟩

namespace TokenKind

/-- Operators and numbers are found only after all other lexemes have been cut off. -/
def isBare : TokenKind → Bool
  | .arith _ | .relation _ | .number => true
  | _ => false

/-- Whether a lexeme ends where one of the next kind begins, or the text ends. -/
def endsBefore : TokenKind → Option TokenKind → Bool
  | .functionName, next => next == some .openBracket
  | .whitespace, next => next != some .whitespace
  | .number, next => next.all [.whitespace, .comma, .closeBracket].contains
  | .arith _, next | .relation _, next => !next.any isBare
  | _, _ => true

end TokenKind

/-- The kind of the first lexeme, or what comes after all of them. -/
def Piece.first (next : Option TokenKind) : List Piece → Option TokenKind
  | [] => next
  | p :: _ => some p.kind

def Separate (next : Option TokenKind) : List Piece → Prop
  | [] => True
  | p :: ps => IsLexeme p ∧ p.kind.endsBefore (Piece.first next ps) ∧ Separate next ps

namespace Separate
variable {next : Option TokenKind} {ps qs : List Piece} {p : Piece}

theorem append {kind : Option TokenKind} (hp : Separate kind ps) (hk : Piece.first next qs = kind)
    (hq : Separate next qs) : Separate next (ps ++ qs) := by
  subst hk
  induction ps with
  | nil => exact hq
  | cons p ps ih =>
    obtain ⟨hlex, hends, hps⟩ := hp
    refine ⟨hlex, ?_, ih hps⟩
    cases ps with
    | nil => exact hends
    | cons q ps => exact hends

theorem of_append (h : Separate next (ps ++ qs)) : Separate next qs := by
  induction ps with
  | nil => exact h
  | cons p ps ih => exact ih h.2.2

theorem lexeme (h : Separate next ps) (hp : p ∈ ps) : IsLexeme p := by
  obtain ⟨front, back, rfl⟩ := List.append_of_mem hp
  exact h.of_append.1

end Separate

namespace IsLexeme
variable {p : Piece}

theorem kind_ne_unknown (h : IsLexeme p) : p.kind ≠ .unknown := by
  cases h <;> nofun

theorem kind_ne_between (h : IsLexeme p) : p.kind ≠ .between := by
  cases h <;> nofun

theorem chars_ne_nil (h : IsLexeme p) : p.chars ≠ [] := by
  cases h with
  | arith op => cases op <;> decide
  | relation r => cases r <;> decide
  | number shape =>
    rintro rfl
    cases shape
  | _ => exact List.cons_ne_nil _ _

def cutKinds : List TokenKind :=
  [.comma, .whitespace, .closeBracket, .openBracket, .functionName, .param, .singleQuoted]

theorem isBare_of_not_mem (h : IsLexeme p) (hk : p.kind ∉ cutKinds) : p.kind.isBare := by
  cases h with
  | arith op => rfl
  | relation r => rfl
  | number shape => rfl
  | _ => simp [cutKinds] at hk

theorem bareChars (h : IsLexeme p) (hk : p.kind.isBare) : ∀ c ∈ p.chars, Text.isBare c := by
  cases h with
  | arith op => exact List.all_eq_true.mp (by cases op <;> decide)
  | relation r => exact List.all_eq_true.mp (by cases r <;> decide)
  | number shape =>
    intro c hc
    simp [Text.isBare, (Shape.chars_of_isNumber shape).2 c hc]
  | _ => cases hk

theorem plainChars (h : IsLexeme p) (hk : p.kind ∉ [.param, .singleQuoted]) :
    ∀ c ∈ p.chars, Text.isPlain c := by
  by_cases hb : p.kind.isBare
  · intro c hc
    simp [Text.isPlain, h.bareChars hb c hc]
  · cases h with
    | functionName start rest =>
      intro c hc
      rcases List.mem_cons.mp hc with rfl | hc
      · have hrest : Text.isIdentifierRest c := by
          simp only [Text.isIdentifierStart, Bool.or_eq_true] at start
          rcases start with start | start
          · simp [Text.isIdentifierRest, Char.isAlphanum, start]
          · simp [Text.isIdentifierRest, start]
        simp [Text.isPlain, hrest]
      · simp [Text.isPlain, rest c hc]
    | openBracket => exact List.all_eq_true.mp (by decide)
    | closeBracket => exact List.all_eq_true.mp (by decide)
    | blank => exact List.all_eq_true.mp (by decide)
    | comma => exact List.all_eq_true.mp (by decide)
    | arith op => exact absurd rfl hb
    | relation r => exact absurd rfl hb
    | number shape => exact absurd rfl hb
    | _ => simp at hk

def marks : List Piece :=
  [⟨.openBracket, ['(']⟩, ⟨.closeBracket, [')']⟩, ⟨.whitespace, [' ']⟩, ⟨.comma, [',']⟩]

/-- What is left when literals and names have been cut off. -/
theorem isBare_or_mem_marks (h : IsLexeme p)
    (hk : p.kind ∉ [.functionName, .param, .singleQuoted]) : p.kind.isBare ∨ p ∈ marks := by
  cases h with
  | arith op => exact .inl rfl
  | relation r => exact .inl rfl
  | number shape => exact .inl rfl
  | quoted => simp at hk
  | param => simp at hk
  | functionName => simp at hk
  | _ => exact .inr (by decide)

end IsLexeme

end PipeQuery
