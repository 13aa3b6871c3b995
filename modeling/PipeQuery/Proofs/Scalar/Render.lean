import PipeQuery.Proofs.Scalar.Structured
import PipeQuery.Proofs.Token.Spelled

/-!
Rendered expressions are read back: their text is spelled with separate lexemes, whose tokens stand
for the expression.
-/
namespace PipeQuery

def BinaryOp.lexeme : BinaryOp → Piece
  | .arith op => ⟨.arith op, op.symbol.toList⟩
  | .relation r => ⟨.relation r, r.symbol.toList⟩

namespace Expr

structure IsName (name : String) : Prop where
  identifier : ∃ c cs, name.toList = c :: cs ∧ Text.isIdentifierStart c ∧
    ∀ x ∈ cs, Text.isIdentifierRest x
  keyword : Words.keyword? name.toList = none

/-- Expressions whose names and literals have a form of their own when they are written: fields
whose names do not end the parameter, hide text or start another one, literals without backslashes,
and calls of named functions. A negated number or negation would be read as something else. -/
inductive Plain : Expr → Prop where
  | field {name : String} (brace : '\x7d' ∉ name.toList) (double : '"' ∉ name.toList)
    (single : '\'' ∉ name.toList) (comment : ¬['/', '/'] <:+: name.toList)
    (block : ¬['/', '*'] <:+: name.toList) (start : ¬['$', '\x7b'] <+: name.toList) :
    Plain (.field name)
  | text {value : String} (backslash : '\\' ∉ value.toList) : Plain (.text value)
  | number {written : String} (shape : Shape.isNumber written.toList) : Plain (.number written)
  | call {name : String} {args : List Expr} (function : IsName name) (plain : ∀ a ∈ args, Plain a) :
    Plain (.call name args)
  | negate {e : Expr} (number : ∀ w, e ≠ .number w) (negation : ∀ a, e ≠ .negate a)
    (plain : Plain e) : Plain (.negate e)
  | binary {op : BinaryOp} {l r : Expr} (left : Plain l) (right : Plain r) : Plain (.binary op l r)

def enclose (b : Bool) (ps : List Piece) : List Piece :=
  if b then ⟨.openBracket, ['(']⟩ :: (ps ++ [⟨.closeBracket, [')']⟩]) else ps

mutual

def lexemes : Expr → List Piece
  | .field name => [⟨.param, '$' :: '\x7b' :: (name.toList ++ ['\x7d'])⟩]
  | .text value => [⟨.singleQuoted, '\'' :: (value.toList.flatMap escapeQuote ++ ['\''])⟩]
  | .number written => [⟨.number, written.toList⟩]
  | .call name args =>
    ⟨.functionName, name.toList⟩ :: ⟨.openBracket, ['(']⟩ ::
      (lexemesList args ++ [⟨.closeBracket, [')']⟩])
  | .negate e => ⟨.arith .subtract, ['-']⟩ :: enclose e.isBinary e.lexemes
  | .binary op left right =>
    enclose left.isBinary left.lexemes ++ ⟨.whitespace, [' ']⟩ :: op.lexeme ::
      ⟨.whitespace, [' ']⟩ :: enclose right.isBinary right.lexemes

def lexemesList : List Expr → List Piece
  | [] => []
  | [e] => e.lexemes
  | e :: es => e.lexemes ++ ⟨.comma, [',']⟩ :: ⟨.whitespace, [' ']⟩ :: lexemesList es

end

private theorem lexemesList_cons_cons (e e' : Expr) (es : List Expr) :
    lexemesList (e :: e' :: es) =
      e.lexemes ++ ⟨.comma, [',']⟩ :: ⟨.whitespace, [' ']⟩ :: lexemesList (e' :: es) := by
  rw [lexemesList]
  intro h
  cases h

private theorem spell_enclose (b : Bool) {ps : List Piece} {s : String}
    (h : Piece.spell ps = s.toList) : Piece.spell (enclose b ps) = (bracketIf b s).toList := by
  cases b with
  | false => exact h
  | true => simp [enclose, bracketIf, Piece.spell, ← h]

mutual

/-- The lexemes spell the rendered expression. -/
theorem spell_lexemes : (e : Expr) → Piece.spell e.lexemes = e.render.toList
  | .field name => by simp [lexemes, render, Piece.spell]
  | .text value => by simp [lexemes, render, Piece.spell]
  | .number written => by simp [lexemes, render, Piece.spell]
  | .call name args => by
    have hargs := spell_lexemesList args
    simp [lexemes, render, Piece.spell, ← hargs]
  | .negate e => by
    have he := spell_enclose e.isBinary (spell_lexemes e)
    simp [lexemes, render, Piece.spell_cons, he]
  | .binary op left right => by
    have hleft := spell_enclose left.isBinary (spell_lexemes left)
    have hright := spell_enclose right.isBinary (spell_lexemes right)
    have hop : op.lexeme.chars = op.symbol.toList := by cases op <;> rfl
    simp [lexemes, render, Piece.spell_cons, Piece.spell_append, hleft, hright, hop]

private theorem spell_lexemesList : (es : List Expr) →
    Piece.spell (lexemesList es) = (", ".intercalate (renderList es)).toList
  | [] => by simp [lexemesList, renderList, Piece.spell]
  | [e] => by simp [lexemesList, renderList, spell_lexemes e]
  | e :: e' :: es => by
    have hrest := spell_lexemesList (e' :: es)
    simp only [renderList] at hrest
    simp [lexemesList_cons_cons, renderList, Piece.spell_cons, Piece.spell_append, spell_lexemes e,
      hrest]

end

def stops : List (Option TokenKind) := [none, some .whitespace, some .comma, some .closeBracket]

private theorem separate_single {p : Piece} {next : Option TokenKind} (hp : IsLexeme p)
    (h : p.kind.endsBefore next) : Separate next [p] :=
  ⟨hp, h, trivial⟩

private theorem first_append (next : Option TokenKind) (ps qs : List Piece) :
    Piece.first next (ps ++ qs) = Piece.first (Piece.first next qs) ps := by
  cases ps <;> rfl

private theorem first_operand (e : Expr) (next : Option TokenKind) :
    Piece.first next (enclose e.isBinary e.lexemes) ≠ some .whitespace := by
  cases e <;> simp [enclose, isBinary, lexemes, Piece.first]

private theorem first_lexemes (e : Expr) (next : Option TokenKind) :
    Piece.first next e.lexemes ≠ some .whitespace := by
  cases e with
  | binary op left right =>
    rw [lexemes, first_append]
    exact first_operand left _
  | _ => simp [lexemes, Piece.first]

private theorem first_lexemesList (e : Expr) (es : List Expr) (next : Option TokenKind) :
    Piece.first next (lexemesList (e :: es)) ≠ some .whitespace := by
  cases es with
  | nil => exact first_lexemes e next
  | cons e' es =>
    rw [lexemesList_cons_cons, first_append]
    exact first_lexemes e _

private theorem separate_enclose {ps : List Piece} {next : Option TokenKind} (b : Bool)
    (h : ∀ next ∈ stops, Separate next ps) (hnext : next ∈ stops) :
    Separate next (enclose b ps) := by
  cases b with
  | false => exact h next hnext
  | true =>
    have hinside : Separate (some .closeBracket) ps := h _ (by simp [stops])
    exact ⟨.openBracket, rfl, hinside.append rfl (separate_single .closeBracket rfl)⟩

private theorem isLexeme_operator (op : BinaryOp) : IsLexeme op.lexeme := by
  cases op with
  | arith op => exact .arith op
  | relation r => exact .relation r

private theorem separate_binary {op : BinaryOp} {l r : Expr} {next : Option TokenKind}
    (hl : ∀ next ∈ stops, Separate next l.lexemes) (hr : ∀ next ∈ stops, Separate next r.lexemes)
    (hnext : next ∈ stops) : Separate next (Expr.binary op l r).lexemes := by
  have hleft : Separate (some .whitespace) (enclose l.isBinary l.lexemes) :=
    separate_enclose l.isBinary hl (by simp [stops])
  have hright := separate_enclose r.isBinary hr hnext
  have hop : op.lexeme.kind.endsBefore (some .whitespace) := by cases op <;> rfl
  have hspace : op.lexeme.kind ≠ .whitespace := by cases op <;> nofun
  have hfirst := first_operand r next
  rw [lexemes]
  refine hleft.append rfl ⟨.blank, ?_, isLexeme_operator op, hop, .blank, ?_, hright⟩
  · simpa [TokenKind.endsBefore, Piece.first] using hspace
  · simpa [TokenKind.endsBefore] using hfirst

private theorem separate_lexemesList {es : List Expr}
    (h : ∀ e ∈ es, ∀ next ∈ stops, Separate next e.lexemes) :
    Separate (some .closeBracket) (lexemesList es) := by
  induction es with
  | nil => trivial
  | cons e es ih =>
    obtain ⟨he, hes⟩ := List.forall_mem_cons.mp h
    cases es with
    | nil => exact he _ (by simp [stops])
    | cons e' es =>
      have hfirst := first_lexemesList e' es (some .closeBracket)
      rw [lexemesList_cons_cons]
      refine (he (some .comma) (by simp [stops])).append rfl ⟨.comma, rfl, .blank, ?_, ih hes⟩
      simpa [TokenKind.endsBefore] using hfirst

private theorem separate_lexemes {e : Expr} (h : e.Plain) :
    ∀ next ∈ stops, Separate next e.lexemes := by
  induction h with
  | field brace double single comment block start =>
    intro next hnext
    exact separate_single (.param brace double single comment block) rfl
  | text backslash =>
    intro next hnext
    exact separate_single (.quoted backslash) rfl
  | number shape =>
    intro next hnext
    refine separate_single (.number shape) ?_
    simp only [stops, List.mem_cons, List.not_mem_nil, or_false] at hnext
    rcases hnext with rfl | rfl | rfl | rfl <;> rfl
  | @call name args function plain ih =>
    intro next hnext
    obtain ⟨⟨c, cs, heq, hstart, hrest⟩, hkeyword⟩ := function
    have hargs := separate_lexemesList ih
    rw [heq] at hkeyword
    rw [lexemes, heq]
    exact ⟨.functionName hstart hrest hkeyword, rfl, .openBracket, rfl,
      hargs.append rfl (separate_single .closeBracket rfl)⟩
  | @negate e number negation plain ih =>
    intro next hnext
    refine ⟨.arith .subtract, ?_, separate_enclose e.isBinary ih hnext⟩
    cases e with
    | number w => exact absurd rfl (number w)
    | negate a => exact absurd rfl (negation a)
    | _ => rfl
  | binary left right ihl ihr =>
    intro next hnext
    exact separate_binary ihl ihr hnext

private theorem stands_lexemesList {es : List Expr} (h : ∀ e ∈ es, Stands (.expression e) e.lexemes)
    (hne : es ≠ []) : Stands (.arguments es) (lexemesList es) := by
  induction es with
  | nil => exact absurd rfl hne
  | cons e es ih =>
    obtain ⟨he, hes⟩ := List.forall_mem_cons.mp h
    cases es with
    | nil => exact he.lastArgument
    | cons e' es =>
      rw [lexemesList_cons_cons]
      exact he.moreArguments (ih hes (List.cons_ne_nil e' es)).blank_cons

/-- The lexemes stand for the expression, and for an operand when they are in brackets or need
none. -/
theorem stands_lexemes {e : Expr} (h : e.Plain) :
    Stands (.operand e) (enclose e.isBinary e.lexemes) ∧ Stands (.expression e) e.lexemes := by
  induction h with
  | field brace double single comment block start =>
    have hfield := (Stands.field brace start).operand
    exact ⟨hfield, hfield.expression⟩
  | text backslash =>
    have htext := (Stands.text backslash).operand
    exact ⟨htext, htext.expression⟩
  | @number written shape =>
    have hnumber := (Stands.number written).operand
    exact ⟨hnumber, hnumber.expression⟩
  | @call name args function plain ih =>
    have hcall : Stands (.primary (.call name args)) (Expr.call name args).lexemes := by
      cases args with
      | nil => exact .emptyCall name
      | cons a args =>
        have hargs := stands_lexemesList (fun e he => (ih e he).2) (List.cons_ne_nil a args)
        exact hargs.call
    exact ⟨hcall.operand, hcall.operand.expression⟩
  | negate number negation plain ih => exact ⟨ih.1.negate, ih.1.negate.expression⟩
  | @binary op l r left right ihl ihr =>
    have hop : BinaryOp.ofKind? op.lexeme.kind = some op := by cases op <;> rfl
    have hbinary := Stands.binary hop ihl.1 ihr.1.blank_cons
    exact ⟨hbinary.bracket.operand, hbinary⟩

/-- An expression that is rendered, tokenized, structured and read again is the same expression. -/
theorem run_render {e : Expr} (h : e.Plain) :
    ∃ root, Group.ofTokens (Lexer.tokens e.render) = .ok root ∧
      ∀ index, (Scalar.run index {} root.children).1 = .ok e := by
  have hspell := spell_lexemes e
  have hpieces : Lexer.pieces e.render.toList = e.lexemes := by
    rw [← hspell]
    exact pieces_spell (separate_lexemes h none (by simp [stops]))
  have htokens : (Lexer.tokens e.render).map Token.piece = e.lexemes := by
    rw [Lexer.tokens, hpieces]
    exact Lexer.map_piece_layout hspell
  obtain ⟨nodes, hbuilds, hw⟩ := (stands_lexemes h).2 _ htokens
  obtain ⟨root, hroot, hchildren⟩ := hbuilds.ofTokens
  refine ⟨root, hroot, fun index => ?_⟩
  rw [hchildren]
  exact Scalar.run_of_written hw index

def negatedSample : Expr :=
  .negate (.binary (.arith .subtract)
    (.binary (.relation .lessEqual) (.call "f" [.field "a|b", .text "it's"]) (.number "2"))
    (.number "-3e5"))

theorem run_render_sample :
    negatedSample.render = "-((f($\x7ba|b\x7d, 'it\\'s') <= 2) - -3e5)" ∧
      ∃ root, Group.ofTokens (Lexer.tokens negatedSample.render) = .ok root ∧
        ∀ index, (Scalar.run index {} root.children).1 = .ok negatedSample := by
  have hname : IsName "f" := ⟨⟨'f', [], rfl, by decide, nofun⟩, by decide +kernel⟩
  have hargs : ∀ a ∈ [field "a|b", text "it's"], a.Plain := by
    intro a ha
    simp only [List.mem_cons, List.not_mem_nil, or_false] at ha
    rcases ha with rfl | rfl
    · exact .field (by decide) (by decide) (by decide) (by decide) (by decide) (by decide)
    · exact .text (by decide)
  refine ⟨by decide +kernel, run_render ?_⟩
  exact .negate nofun nofun
    (.binary (.binary (.call hname hargs) (.number (by decide))) (.number (by decide)))

end Expr

end PipeQuery
