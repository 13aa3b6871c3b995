import PipeQuery.Proofs.Scalar.Grammar

/-!
Named expressions as a substitution. A name that is read stands for its expression at once, in the
middle of a level whose operands are not grouped yet. What comes out is the same as if all names
were read as fields and their expressions were put in at the end, each once.
-/
namespace PipeQuery

namespace Expr

mutual

/-- The expression with every field replaced. What is put in is not looked at again. -/
def subst (σ : String → Expr) : Expr → Expr
  | .field name => σ name
  | .text value => .text value
  | .number written => .number written
  | .call name args => .call name (substList σ args)
  | .negate e => .negate (e.subst σ)
  | .binary op left right => .binary op (left.subst σ) (right.subst σ)

def substList (σ : String → Expr) : List Expr → List Expr
  | [] => []
  | e :: es => e.subst σ :: substList σ es

end

private theorem substList_append (σ : String → Expr) (es es' : List Expr) :
    substList σ (es ++ es') = substList σ es ++ substList σ es' := by
  induction es with
  | nil => rfl
  | cons e es ih => rw [List.cons_append, substList, ih, substList, List.cons_append]

end Expr

namespace Chain

def subst (σ : String → Expr) (c : Chain) : Chain :=
  ⟨c.first.subst σ, c.rest.map fun x => (x.1, x.2.subst σ)⟩

variable (σ : String → Expr)

private theorem subst_add (c : Chain) (op : BinaryOp) (e : Expr) :
    (c.add op e).subst σ = (c.subst σ).add op (e.subst σ) := by
  simp [add, subst]

private theorem joinLeft_subst (p : Nat) (c : Chain) :
    joinLeft p (c.subst σ).first (c.subst σ).rest = (joinLeft p c.first c.rest).subst σ := by
  obtain ⟨e, rest⟩ := c
  simp only [subst]
  induction rest generalizing e with
  | nil => rfl
  | cons x rest ih =>
    obtain ⟨op, right⟩ := x
    rw [List.map_cons, joinLeft, joinLeft]
    by_cases hop : op.precedence = p
    · rw [if_pos hop, if_pos hop]
      exact ih (.binary op e right)
    · rw [if_neg hop, if_neg hop, ih right]
      rfl

private theorem joinRight_subst (p : Nat) (c : Chain) :
    joinRight p (c.subst σ).first (c.subst σ).rest = (joinRight p c.first c.rest).subst σ := by
  obtain ⟨e, rest⟩ := c
  simp only [subst]
  induction rest generalizing e with
  | nil => rfl
  | cons x rest ih =>
    obtain ⟨op, right⟩ := x
    rw [List.map_cons, joinRight, joinRight, ih right]
    by_cases hop : op.precedence = p
    · rw [if_pos hop, if_pos hop]
      rfl
    · rw [if_neg hop, if_neg hop]
      rfl

/-- Grouping takes an operand as a whole, so it does not matter what has been put in. -/
theorem tree_subst (c : Chain) : (c.subst σ).tree = c.tree.subst σ := by
  rw [tree, joinRight_subst, joinLeft_subst, joinLeft_subst, joinLeft_subst]
  rfl

end Chain

namespace Scalar

variable (σ : String → Expr)

private theorem negated_subst (n : Nat) (e : Expr) :
    negated n (e.subst σ) = (negated n e).subst σ := by
  induction n with
  | zero => rfl
  | succ n ih => rw [negated, ih, negated, Expr.subst]

def Progress.subst : Progress → Progress
  | .start n => .start n
  | .operand before op n => .operand (before.subst σ) op n
  | .complete chain => .complete (chain.subst σ)

def Level.subst (l : Level) : Level :=
  { l with args := Expr.substList σ l.args, progress := l.progress.subst σ }

private theorem Progress.put_subst (e : Expr) (p : Progress) :
    (p.subst σ).put (e.subst σ) = (p.put e).subst σ := by
  cases p with
  | start n =>
    rw [subst, put, put, negated_subst]
    rfl
  | operand before op n =>
    rw [subst, put, put, subst, negated_subst, Chain.subst_add]
  | complete chain => rfl

private theorem Progress.negate_subst (p : Progress) : (p.subst σ).negate = p.negate.subst σ := by
  cases p <;> rfl

private theorem Progress.finish_subst (p : Progress) :
    (p.subst σ).finish = p.finish.map (Expr.subst σ) := by
  cases p with
  | start n => rfl
  | operand before op n => rfl
  | complete chain => exact congrArg Except.ok (Chain.tree_subst σ chain)

private theorem Level.put_subst (l : Level) (e : Expr) :
    { l.subst σ with progress := (l.subst σ).progress.put (e.subst σ) } =
      ({ l with progress := l.progress.put e } : Level).subst σ := by
  simp only [subst, Progress.put_subst]

private theorem Level.nextArgument_subst (l : Level) :
    (l.subst σ).nextArgument = l.nextArgument.map (Level.subst σ) := by
  have hfinish := Progress.finish_subst σ l.progress
  rw [nextArgument, nextArgument, subst, hfinish]
  cases l.progress.finish with
  | error e => rfl
  | ok e =>
    have hargs := Expr.substList_append σ l.args [e]
    simp only [Except.map, bind, Except.bind, pure, Except.pure, subst, hargs]
    rfl

private theorem readOperator_subst (l : Level) (chain : Chain) (n : Node) :
    readOperator (l.subst σ) (chain.subst σ) n = (readOperator l chain n).map (Level.subst σ) := by
  rw [readOperator, readOperator]
  cases BinaryOp.ofKind? n.kind with
  | some op => rfl
  | none =>
    have hcall : (l.subst σ).inCall = l.inCall := rfl
    simp only [hcall]
    split
    · exact Level.nextArgument_subst σ l
    · rfl

section
variable (evals : Evals)

/-- A name that is read as a field is replaced by what it stands for. -/
theorem mirrors_reference (name : String) :
    Mirrors (Expr.subst (named evals)) (reference {} name) (reference evals name) := by
  intro s s'
  have hfield : ((reference {} name).run.run s).1 = .ok (.field name) := rfl
  rw [hfield, reference]
  have hnamed : (Expr.field name).subst (named evals) = (evals.get? name).getD (.field name) := rfl
  rw [Except.map, hnamed]
  cases evals.get? name with
  | some e => rfl
  | none => rfl

private theorem mirrors_put {l : Level} {x y : Reading Expr}
    (h : Mirrors (Expr.subst (named evals)) x y) :
    Mirrors (Level.subst (named evals))
      (do return { l with progress := l.progress.put (← x) })
      (do return { l.subst (named evals) with
        progress := (l.subst (named evals)).progress.put (← y) }) := by
  refine h.bind fun e => ?_
  rw [Level.put_subst]
  exact .pure _ _

private theorem mirrors_readOperand (l : Level) (t : Token) :
    Mirrors (Level.subst (named evals)) (readOperand {} l t)
      (readOperand evals (l.subst (named evals)) t) := by
  have hput (e : Expr) (he : e.subst (named evals) = e) := mirrors_put evals (l := l)
    (x := pure e) (y := pure e) (by
      intro s s'
      exact congrArg Except.ok he.symm)
  rw [readOperand, readOperand]
  cases t.kind with
  | arith op =>
    cases op with
    | subtract =>
      refine fun s s' => congrArg Except.ok ?_
      simp only [Level.subst, Progress.negate_subst]
    | add => exact .pure _ _
    | _ => exact .throw _ _
  | number => exact hput (.number t.slice) rfl
  | singleQuoted | doubleQuoted => exact hput (.text t.unescaped) rfl
  | duration | dateTime => exact hput (.text t.slice) rfl
  | word => exact mirrors_put evals (mirrors_reference evals t.slice)
  | param => exact mirrors_put evals (mirrors_reference evals (paramName t.slice))
  | comma =>
    have hcall : (l.subst (named evals)).inCall = l.inCall := rfl
    simp only [hcall]
    split
    · exact .throw _ _
    · exact .throw _ _
  | _ => exact .throw _ _

theorem Progress.Awaits.subst {p : Progress} (h : p.Awaits) : (p.subst σ).Awaits := by
  cases p with
  | complete chain => exact h
  | _ => trivial

mutual

/-- One node, by recursion into groups. -/
theorem mirrors_readNode (n : Node) (l : Level) :
    Mirrors (Level.subst (named evals)) (readNode {} l n)
      (readNode evals (l.subst (named evals)) n) := by
  by_cases hl : l.progress.Awaits
  · have hl' : (l.subst (named evals)).progress.Awaits := hl.subst (named evals)
    match n with
    | .token t =>
      rw [readNode_token hl, readNode_token hl']
      exact mirrors_readOperand evals l t
    | .group kind source span children =>
      cases kind with
      | root | bracket opening closing =>
        rw [readNode_bracket hl rfl, readNode_bracket hl' rfl]
        refine (mirrors_readNodes children { inCall := false }).bind fun inner => ?_
        exact mirrors_put evals (.lift (Progress.finish_subst (named evals) inner.progress))
      | function name opening closing =>
        rw [readNode_call hl, readNode_call hl']
        split
        · exact mirrors_put evals (.pure (Expr.subst (named evals)) (.call name.slice []))
        · split
          · exact .throw _ _
          · refine (mirrors_readNodes children { inCall := true }).bind fun inner => ?_
            refine (Mirrors.lift (Level.nextArgument_subst (named evals) inner)).bind fun last => ?_
            exact mirrors_put evals (.pure (Expr.subst (named evals)) (.call name.slice last.args))
      | pipe bar command | clause keyword =>
        cases hp : l.progress with
        | complete chain => simp [hp, Progress.Awaits] at hl
        | _ =>
          simp only [readNode, Level.subst, hp, Progress.subst]
          exact .throw _ _
  · cases hp : l.progress with
    | complete chain =>
      have hp' : (l.subst (named evals)).progress = .complete (chain.subst (named evals)) := by
        rw [Level.subst, hp]
        rfl
      rw [readNode_complete hp, readNode_complete hp']
      exact .lift (readOperator_subst (named evals) l chain n)
    | _ => simp [hp, Progress.Awaits] at hl

private theorem mirrors_readNodes (ns : List Node) (l : Level) :
    Mirrors (Level.subst (named evals)) (readNodes {} l ns)
      (readNodes evals (l.subst (named evals)) ns) := by
  match ns with
  | [] => exact .pure _ l
  | n :: ns =>
    rw [readNodes, readNodes]
    exact (mirrors_readNode n l).bind fun next => mirrors_readNodes ns next

end

end

/-- Reading with named expressions ends as reading without them does: it fails with the same error,
or it gives the same expression with each field that has a named expression replaced by it, once. -/
theorem run_eq_map_subst (index index' : FieldIndex) (evals : Evals) (nodes : List Node) :
    (run index evals nodes).1 = (run index' {} nodes).1.map (Expr.subst (named evals)) := by
  have hread : Mirrors (Expr.subst (named evals)) (read {} nodes) (read evals nodes) := by
    refine (mirrors_readNodes evals nodes { inCall := false }).bind fun l => ?_
    exact .lift (Progress.finish_subst (named evals) l.progress)
  exact hread index' index

/-- An expression that names itself is put in once. -/
example : (Expr.binary (.arith .multiply) (.field "a") (.field "b")).subst
      (named ⟨[("a", .binary (.arith .add) (.field "a") (.number "1"))]⟩) =
    .binary (.arith .multiply) (.binary (.arith .add) (.field "a") (.number "1")) (.field "b") := by
  decide

end Scalar

end PipeQuery
