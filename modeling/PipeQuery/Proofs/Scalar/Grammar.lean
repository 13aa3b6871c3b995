import PipeQuery.Group.Structure
import PipeQuery.Proofs.Result
import PipeQuery.Proofs.Scalar.Precedence
import PipeQuery.Scalar.Reader
import PipeQuery.Token.Lexer

/-!
The grammar of scalar expressions. `Accepted` says which nodes are an expression, and `Written` also
what they stand for; reading succeeds exactly on the accepted nodes and builds the precedence tree
over the operands and operators in the order in which they are written.
-/
namespace PipeQuery

def TokenKind.isOperand : TokenKind → Bool
  | .number | .singleQuoted | .doubleQuoted | .duration | .dateTime | .word | .param => true
  | _ => false

/-- Groups that stand for the expression inside of them. The root of a query is never a part of
another group, and would be read as if it stood in brackets. -/
def GroupKind.isBracket : GroupKind → Bool
  | .root | .bracket .. => true
  | _ => false

namespace Scalar

def named (evals : Evals) (name : String) : Expr := (evals.get? name).getD (.field name)

inductive Category where
  | primary
  | operand
  | expression
  | arguments

/-- The nodes of each category: an expression is operands with operators between them, an operand is
a primary after any number of signs. -/
inductive Accepted : Category → List Node → Prop where
  | token {t : Token} (kind : t.kind.isOperand) : Accepted .primary [.token t]
  | bracket {kind : GroupKind} {source : String} {span : Span} {nodes : List Node}
      (bracket : kind.isBracket) (inside : Accepted .expression nodes) :
      Accepted .primary [.group kind source span nodes]
  | emptyCall (name opening closing : Token) (source : String) (span : Span) :
      Accepted .primary [.group (.function name opening closing) source span []]
  | call {name opening closing : Token} {source : String} {span : Span} {nodes : List Node}
      (inside : Accepted .arguments nodes) :
      Accepted .primary [.group (.function name opening closing) source span nodes]
  | unsigned {ns : List Node} (primary : Accepted .primary ns) : Accepted .operand ns
  | signed {t : Token} {ns : List Node} (sign : t.kind = .arith .add ∨ t.kind = .arith .subtract)
      (operand : Accepted .operand ns) : Accepted .operand (.token t :: ns)
  | first {ns : List Node} (operand : Accepted .operand ns) : Accepted .expression ns
  | next {ns ms : List Node} {n : Node} (before : Accepted .expression ns)
      (operator : (BinaryOp.ofKind? n.kind).isSome) (operand : Accepted .operand ms) :
      Accepted .expression (ns ++ n :: ms)
  | lastArgument {ns : List Node} (argument : Accepted .expression ns) : Accepted .arguments ns
  | moreArguments {ns ms : List Node} {n : Node} (argument : Accepted .expression ns)
      (comma : n.kind = .comma) (rest : Accepted .arguments ms) :
      Accepted .arguments (ns ++ n :: ms)

/-- What nodes of a category stand for. An expression is also looked at as the chain of its operands
and operators. -/
inductive Form where
  | primary (e : Expr)
  | operand (e : Expr)
  | chain (c : Chain)
  | expression (e : Expr)
  | arguments (args : List Expr)

def Form.category : Form → Category
  | .primary _ => .primary
  | .operand _ => .operand
  | .chain _ | .expression _ => .expression
  | .arguments _ => .arguments

/-- What nodes stand for. A minus sign negates the primary after it and a plus sign is dropped; a
chain stands for the precedence tree over it. -/
inductive Written (evals : Evals) : Form → List Node → Prop where
  | number {t : Token} (kind : t.kind = .number) :
      Written evals (.primary (.number t.slice)) [.token t]
  | quoted {t : Token} (kind : t.kind.isQuoted) :
      Written evals (.primary (.text t.unescaped)) [.token t]
  | moment {t : Token} (kind : t.kind = .duration ∨ t.kind = .dateTime) :
      Written evals (.primary (.text t.slice)) [.token t]
  | word {t : Token} (kind : t.kind = .word) :
      Written evals (.primary (named evals t.slice)) [.token t]
  | param {t : Token} (kind : t.kind = .param) :
      Written evals (.primary (named evals (paramName t.slice))) [.token t]
  | bracket {kind : GroupKind} {source : String} {span : Span} {nodes : List Node} {e : Expr}
      (bracket : kind.isBracket) (inside : Written evals (.expression e) nodes) :
      Written evals (.primary e) [.group kind source span nodes]
  | emptyCall (name opening closing : Token) (source : String) (span : Span) :
      Written evals (.primary (.call name.slice []))
        [.group (.function name opening closing) source span []]
  | call {name opening closing : Token} {source : String} {span : Span} {nodes : List Node}
      {args : List Expr} (inside : Written evals (.arguments args) nodes) :
      Written evals (.primary (.call name.slice args))
        [.group (.function name opening closing) source span nodes]
  | unsigned {ns : List Node} {e : Expr} (primary : Written evals (.primary e) ns) :
      Written evals (.operand e) ns
  | plus {t : Token} {ns : List Node} {e : Expr} (sign : t.kind = .arith .add)
      (operand : Written evals (.operand e) ns) : Written evals (.operand e) (.token t :: ns)
  | minus {t : Token} {ns : List Node} {e : Expr} (sign : t.kind = .arith .subtract)
      (operand : Written evals (.operand e) ns) :
      Written evals (.operand (.negate e)) (.token t :: ns)
  | first {ns : List Node} {e : Expr} (operand : Written evals (.operand e) ns) :
      Written evals (.chain ⟨e, []⟩) ns
  | next {ns ms : List Node} {n : Node} {c : Chain} {op : BinaryOp} {e : Expr}
      (before : Written evals (.chain c) ns) (operator : BinaryOp.ofKind? n.kind = some op)
      (operand : Written evals (.operand e) ms) :
      Written evals (.chain (c.add op e)) (ns ++ n :: ms)
  | tree {t : OpTree} {ns : List Node} (ordered : t.Ordered)
      (chain : Written evals (.chain t.inorder) ns) : Written evals (.expression t.expr) ns
  | lastArgument {ns : List Node} {e : Expr} (argument : Written evals (.expression e) ns) :
      Written evals (.arguments [e]) ns
  | moreArguments {ns ms : List Node} {n : Node} {e : Expr} {args : List Expr}
      (argument : Written evals (.expression e) ns) (comma : n.kind = .comma)
      (rest : Written evals (.arguments args) ms) :
      Written evals (.arguments (e :: args)) (ns ++ n :: ms)

section
variable {evals : Evals}

theorem Written.tree_chain {c : Chain} {ns : List Node} (h : Written evals (.chain c) ns) :
    Written evals (.expression c.tree) ns := by
  rw [← OpTree.expr_ofChain]
  refine .tree (OpTree.ordered_ofChain c) ?_
  rw [OpTree.inorder_ofChain]
  exact h

private theorem accepted_of_written {f : Form} {ns : List Node} (h : Written evals f ns) :
    Accepted f.category ns := by
  induction h with
  | number kind => exact .token (by rw [kind]; rfl)
  | @quoted t kind =>
    refine .token ?_
    cases hk : t.kind with
    | singleQuoted | doubleQuoted => rfl
    | _ => simp [hk, TokenKind.isQuoted] at kind
  | moment kind => exact .token (by rcases kind with h | h <;> rw [h] <;> rfl)
  | word kind => exact .token (by rw [kind]; rfl)
  | param kind => exact .token (by rw [kind]; rfl)
  | bracket bracket _ ih => exact .bracket bracket ih
  | emptyCall name opening closing source span => exact .emptyCall name opening closing source span
  | call _ ih => exact .call ih
  | unsigned _ ih => exact .unsigned ih
  | plus sign _ ih => exact .signed (.inl sign) ih
  | minus sign _ ih => exact .signed (.inr sign) ih
  | first _ ih => exact .first ih
  | next _ operator _ ihb iho => exact .next ihb (by rw [operator]; rfl) iho
  | tree _ _ ih => exact ih
  | lastArgument _ ih => exact .lastArgument ih
  | moreArguments _ comma _ ih ihr => exact .moreArguments ih comma ihr

theorem exists_written_token {t : Token} (h : t.kind.isOperand) :
    ∃ e, Written evals (.primary e) [.token t] := by
  cases hk : t.kind with
  | number => exact ⟨_, .number hk⟩
  | singleQuoted | doubleQuoted => exact ⟨_, .quoted (by rw [hk]; rfl)⟩
  | duration => exact ⟨_, .moment (.inl hk)⟩
  | dateTime => exact ⟨_, .moment (.inr hk)⟩
  | word => exact ⟨_, .word hk⟩
  | param => exact ⟨_, .param hk⟩
  | _ => simp [hk, TokenKind.isOperand] at h

/-- Nodes of each category stand for something, whatever the named expressions are. -/
theorem exists_written {c : Category} {ns : List Node} (h : Accepted c ns) :
    match c with
    | .primary => ∃ e, Written evals (.primary e) ns
    | .operand => ∃ e, Written evals (.operand e) ns
    | .expression => ∃ c, Written evals (.chain c) ns
    | .arguments => ∃ args, Written evals (.arguments args) ns := by
  induction h with
  | token kind => exact exists_written_token kind
  | bracket bracket _ ih =>
    obtain ⟨c, hc⟩ := ih
    exact ⟨_, .bracket bracket hc.tree_chain⟩
  | emptyCall name opening closing source span => exact ⟨_, .emptyCall _ _ _ _ _⟩
  | call _ ih =>
    obtain ⟨args, hargs⟩ := ih
    exact ⟨_, .call hargs⟩
  | unsigned _ ih =>
    obtain ⟨e, he⟩ := ih
    exact ⟨e, .unsigned he⟩
  | signed sign _ ih =>
    obtain ⟨e, he⟩ := ih
    rcases sign with sign | sign
    · exact ⟨e, .plus sign he⟩
    · exact ⟨_, .minus sign he⟩
  | first _ ih =>
    obtain ⟨e, he⟩ := ih
    exact ⟨_, .first he⟩
  | next _ operator _ ihb iho =>
    obtain ⟨c, hc⟩ := ihb
    obtain ⟨e, he⟩ := iho
    obtain ⟨op, hop⟩ := Option.isSome_iff_exists.mp operator
    exact ⟨_, .next hc hop he⟩
  | lastArgument _ ih =>
    obtain ⟨c, hc⟩ := ih
    exact ⟨_, .lastArgument hc.tree_chain⟩
  | moreArguments _ comma _ ih ihr =>
    obtain ⟨c, hc⟩ := ih
    obtain ⟨args, hargs⟩ := ihr
    exact ⟨_, .moreArguments hc.tree_chain comma hargs⟩

/-! ## Reading what is written -/

def Progress.Awaits : Progress → Prop
  | .complete _ => False
  | _ => True

theorem readNodes_append (l : Level) (ns ms : List Node) :
    readNodes evals l (ns ++ ms) = readNodes evals l ns >>= (readNodes evals · ms) := by
  induction ns generalizing l with
  | nil => simp [readNodes]
  | cons n ns ih => simp [readNodes, ih]

private theorem readNodes_singleton (l : Level) (n : Node) :
    readNodes evals l [n] = readNode evals l n := by
  simp [readNodes]

theorem readNode_token {l : Level} (h : l.progress.Awaits) (t : Token) :
    readNode evals l (.token t) = readOperand evals l t := by
  rw [readNode]
  cases hp : l.progress with
  | complete c => simp [hp, Progress.Awaits] at h
  | _ => rfl

theorem readNode_complete {l : Level} {c : Chain} (h : l.progress = .complete c) (n : Node) :
    readNode evals l n = liftM (readOperator l c n) := by
  cases n with
  | token t => simp [readNode, h]
  | group kind source span children => simp [readNode, h]

theorem readNode_bracket {l : Level} (h : l.progress.Awaits) {kind : GroupKind}
    (hk : kind.isBracket) (source : String) (span : Span) (nodes : List Node) :
    readNode evals l (.group kind source span nodes) = (do
      let inner ← readNodes evals { inCall := false } nodes
      return { l with progress := l.progress.put (← inner.progress.finish) }) := by
  cases kind with
  | root | bracket opening closing =>
    rw [readNode]
    cases hp : l.progress with
    | complete c => simp [hp, Progress.Awaits] at h
    | _ => rfl
  | _ => simp [GroupKind.isBracket] at hk

theorem readNode_call {l : Level} (h : l.progress.Awaits) (name opening closing : Token)
    (source : String) (span : Span) (nodes : List Node) :
    readNode evals l (.group (.function name opening closing) source span nodes) = (do
      if nodes.isEmpty then
        return { l with progress := l.progress.put (.call name.slice []) }
      else if hasGap true nodes then throw .missingArgument
      else
        let inner ← (← readNodes evals { inCall := true } nodes).nextArgument
        return { l with progress := l.progress.put (.call name.slice inner.args) }) := by
  rw [readNode]
  cases hp : l.progress with
  | complete c => simp [hp, Progress.Awaits] at h
  | _ => rfl

private theorem yields_reference (name : String) :
    Yields (reference evals name) (named evals name) := by
  rw [reference, named]
  cases evals.get? name with
  | none => exact fun index => ⟨_, rfl⟩
  | some e => exact .pure e

private theorem negated_negate (n : Nat) (e : Expr) :
    negated n (.negate e) = negated (n + 1) e := by
  induction n with
  | zero => rfl
  | succ n ih =>
    rw [negated, ih]
    rfl

private theorem put_negate (p : Progress) (e : Expr) : p.negate.put e = p.put (.negate e) := by
  cases p with
  | start n => rw [Progress.put, negated_negate]; rfl
  | operand before op n => rw [Progress.put, negated_negate]; rfl
  | complete c => rfl

def Form.Reads (evals : Evals) : Form → List Node → Prop
  | .primary e, ns | .operand e, ns => ∀ l : Level, l.progress.Awaits →
      Yields (readNodes evals l ns) { l with progress := l.progress.put e }
  | .chain c, ns => ∀ l : Level, l.progress = .start 0 →
      Yields (readNodes evals l ns) { l with progress := .complete c }
  | .expression e, ns => ∃ c : Chain, c.tree = e ∧ ∀ l : Level, l.progress = .start 0 →
      Yields (readNodes evals l ns) { l with progress := .complete c }
  | .arguments args, ns => ∀ l : Level, l.inCall → l.progress = .start 0 →
      ∃ l' : Level, Yields (readNodes evals l ns) l' ∧
        l'.nextArgument = .ok { l with args := l.args ++ args }

/-- Every part of an expression has a node and no comma, but arguments may have commas between
them. -/
def Form.Compact : Form → List Node → Prop
  | .arguments _, ns => hasGap true ns = false
  | _, ns => ns ≠ [] ∧ ∀ n ∈ ns, n.kind ≠ .comma

private theorem hasGap_append {ns : List Node} (hne : ns ≠ []) (hc : ∀ n ∈ ns, n.kind ≠ .comma)
    (empty : Bool) (ms : List Node) : hasGap empty (ns ++ ms) = hasGap false ms := by
  induction ns generalizing empty with
  | nil => exact absurd rfl hne
  | cons n ns ih =>
    obtain ⟨hn, hns⟩ := List.forall_mem_cons.mp hc
    rw [List.cons_append, hasGap, if_neg hn]
    cases ns with
    | nil => rfl
    | cons m ns => exact ih (by simp) hns false

private theorem compact_of_written {f : Form} {ns : List Node} (h : Written evals f ns) :
    f.Compact ns := by
  induction h with
  | number kind | word kind | param kind => simp [Form.Compact, Node.kind, kind]
  | moment kind => rcases kind with kind | kind <;> simp [Form.Compact, Node.kind, kind]
  | @quoted t kind =>
    refine ⟨by simp, ?_⟩
    rintro n hn
    cases List.mem_singleton.mp hn
    intro hk
    rw [show t.kind = .comma from hk] at kind
    cases kind
  | @bracket kind source span nodes e bracket _ ih =>
    cases kind with
    | root | bracket opening closing => simp [Form.Compact, Node.kind, GroupKind.tokenKind]
    | _ => simp [GroupKind.isBracket] at bracket
  | emptyCall | call => simp [Form.Compact, Node.kind, GroupKind.tokenKind]
  | unsigned _ ih | first _ ih | tree _ _ ih => exact ih
  | plus sign _ ih | minus sign _ ih =>
    exact ⟨by simp, List.forall_mem_cons.mpr ⟨by simp [Node.kind, sign], ih.2⟩⟩
  | @next ns ms n c op e _ operator _ ihb iho =>
    refine ⟨by simp, List.forall_mem_append.mpr ⟨ihb.2, List.forall_mem_cons.mpr ⟨?_, iho.2⟩⟩⟩
    intro hk
    rw [hk] at operator
    cases operator
  | lastArgument _ ih =>
    have hgap := hasGap_append ih.1 ih.2 true []
    rwa [List.append_nil] at hgap
  | moreArguments _ comma _ ih ihr =>
    rw [Form.Compact, hasGap_append ih.1 ih.2, hasGap, if_pos comma]
    exact ihr

private theorem reads_of_written {f : Form} {ns : List Node} (h : Written evals f ns) :
    f.Reads evals ns := by
  induction h with
  | number kind =>
    intro l hl
    rw [readNodes_singleton, readNode_token hl, readOperand, kind]
    exact .pure _
  | @quoted t kind =>
    intro l hl
    rw [readNodes_singleton, readNode_token hl, readOperand]
    cases hk : t.kind with
    | singleQuoted | doubleQuoted => exact .pure _
    | _ => simp [hk, TokenKind.isQuoted] at kind
  | moment kind =>
    intro l hl
    rw [readNodes_singleton, readNode_token hl, readOperand]
    rcases kind with kind | kind <;> rw [kind] <;> exact .pure _
  | word kind =>
    intro l hl
    rw [readNodes_singleton, readNode_token hl, readOperand, kind]
    exact (yields_reference _).bind (.pure _)
  | param kind =>
    intro l hl
    rw [readNodes_singleton, readNode_token hl, readOperand, kind]
    exact (yields_reference _).bind (.pure _)
  | bracket bracket _ ih =>
    intro l hl
    obtain ⟨c, rfl, hc⟩ := ih
    rw [readNodes_singleton, readNode_bracket hl bracket]
    exact (hc _ rfl).bind ((Yields.lift rfl).bind (.pure _))
  | emptyCall name opening closing source span =>
    intro l hl
    rw [readNodes_singleton, readNode_call hl]
    exact .pure _
  | @call name opening closing source span nodes args inside ih =>
    intro l hl
    have hgap : hasGap true nodes = false := compact_of_written inside
    have hne : nodes.isEmpty = false := by
      cases nodes with
      | nil => cases hgap
      | cons n ns => rfl
    obtain ⟨l', hread, hnext⟩ := ih { inCall := true } rfl rfl
    rw [readNodes_singleton, readNode_call hl, hne, hgap]
    exact hread.bind ((Yields.lift hnext).bind (.pure _))
  | unsigned _ ih => exact ih
  | plus sign _ ih =>
    intro l hl
    rw [readNodes, readNode_token hl, readOperand, sign]
    exact (Yields.pure l).bind (ih l hl)
  | minus sign _ ih =>
    intro l hl
    rw [readNodes, readNode_token hl, readOperand, sign]
    have hl' : l.progress.negate.Awaits := by
      cases hp : l.progress with
      | complete c => simp [hp, Progress.Awaits] at hl
      | _ => trivial
    have hread := ih { l with progress := l.progress.negate } hl'
    simp only [put_negate] at hread
    exact (Yields.pure _).bind hread
  | first _ ih =>
    intro l hl
    have hread := ih l (by rw [hl]; trivial)
    rwa [hl] at hread
  | @next ns ms n c op e _ operator _ ihb iho =>
    intro l hl
    have hop : readOperator { l with progress := .complete c } c n =
        .ok { l with progress := .operand c op 0 } := by
      rw [readOperator, operator]
    rw [readNodes_append]
    refine (ihb l hl).bind ?_
    rw [readNodes, readNode_complete rfl, hop]
    exact (Yields.lift rfl).bind (iho _ trivial)
  | @tree t ns ordered _ ih => exact ⟨_, OpTree.tree_inorder ordered, ih⟩
  | lastArgument _ ih =>
    intro l hcall hl
    obtain ⟨c, rfl, hc⟩ := ih
    exact ⟨_, hc l hl, by rw [Level.nextArgument, ← hl]; rfl⟩
  | @moreArguments ns ms n e args _ comma _ ih ihr =>
    intro l hcall hl
    obtain ⟨c, rfl, hc⟩ := ih
    obtain ⟨l', hread, hnext⟩ :=
      ihr { l with args := l.args ++ [c.tree], progress := .start 0 } hcall rfl
    refine ⟨l', ?_, by rw [hnext, ← hl]; simp⟩
    have hop : readOperator { l with progress := .complete c } c n =
        .ok { l with args := l.args ++ [c.tree], progress := .start 0 } := by
      simp [readOperator, comma, BinaryOp.ofKind?, hcall]
      rfl
    rw [readNodes_append]
    refine (hc l hl).bind ?_
    rw [readNodes, readNode_complete rfl, hop]
    exact (Yields.lift rfl).bind hread

/-! ## What has been written when a reading succeeds -/

inductive Signs : (n : Nat) → List Node → Prop where
  | nil : Signs 0 []
  | plus {n : Nat} {t : Token} {ns : List Node} (sign : t.kind = .arith .add) (before : Signs n ns) :
      Signs n (ns ++ [.token t])
  | minus {n : Nat} {t : Token} {ns : List Node} (sign : t.kind = .arith .subtract)
      (before : Signs n ns) : Signs (n + 1) (ns ++ [.token t])

theorem Signs.append {n : Nat} {ns ms : List Node} {e : Expr} (h : Signs n ns)
    (he : Written evals (.operand e) ms) : Written evals (.operand (negated n e)) (ns ++ ms) := by
  induction h generalizing e ms with
  | nil => exact he
  | plus sign _ ih =>
    rw [List.append_assoc]
    exact ih (.plus sign he)
  | minus sign _ ih =>
    rw [List.append_assoc, ← negated_negate]
    exact ih (.minus sign he)

def Progress.Reached (evals : Evals) : Progress → List Node → Prop
  | .start n, ns => Signs n ns
  | .operand c op n, ns => ∃ front m signs, ns = front ++ m :: signs ∧
      Written evals (.chain c) front ∧ BinaryOp.ofKind? m.kind = some op ∧ Signs n signs
  | .complete c, ns => Written evals (.chain c) ns

inductive Finished (evals : Evals) : List Expr → List Node → Prop where
  | nil : Finished evals [] []
  | comma {args : List Expr} {e : Expr} {front ns : List Node} {n : Node}
      (before : Finished evals args front) (argument : Written evals (.expression e) ns)
      (comma : n.kind = .comma) : Finished evals (args ++ [e]) (front ++ ns ++ [n])

theorem Finished.append {args rest : List Expr} {front ns : List Node}
    (h : Finished evals args front) (hrest : Written evals (.arguments rest) ns) :
    Written evals (.arguments (args ++ rest)) (front ++ ns) := by
  induction h generalizing rest ns with
  | nil => exact hrest
  | comma _ argument comma ih =>
    simp only [List.append_assoc, List.singleton_append]
    exact ih (.moreArguments argument comma hrest)

section Step
variable {p : Progress} {ns : List Node}

theorem Progress.Reached.plus (hp : p.Awaits) (h : p.Reached evals ns) {t : Token}
    (sign : t.kind = .arith .add) : p.Reached evals (ns ++ [.token t]) := by
  cases p with
  | complete c => cases hp
  | start n => exact Signs.plus sign h
  | operand c op n =>
    obtain ⟨front, m, signs, rfl, hc, hop, hsigns⟩ := h
    exact ⟨front, m, signs ++ [.token t], by simp, hc, hop, .plus sign hsigns⟩

theorem Progress.Reached.minus (hp : p.Awaits) (h : p.Reached evals ns) {t : Token}
    (sign : t.kind = .arith .subtract) : p.negate.Reached evals (ns ++ [.token t]) := by
  cases p with
  | complete c => cases hp
  | start n => exact Signs.minus sign h
  | operand c op n =>
    obtain ⟨front, m, signs, rfl, hc, hop, hsigns⟩ := h
    exact ⟨front, m, signs ++ [.token t], by simp, hc, hop, .minus sign hsigns⟩

theorem Progress.Reached.put (hp : p.Awaits) (h : p.Reached evals ns) {n : Node} {e : Expr}
    (he : Written evals (.primary e) [n]) : (p.put e).Reached evals (ns ++ [n]) := by
  cases p with
  | complete c => cases hp
  | start k => exact .first (Signs.append h (.unsigned he))
  | operand c op k =>
    obtain ⟨front, m, signs, rfl, hc, hop, hsigns⟩ := h
    rw [List.append_assoc, List.cons_append]
    exact .next hc hop (hsigns.append (.unsigned he))

theorem Progress.Reached.finish (h : p.Reached evals ns) {e : Expr} (hf : p.finish = .ok e) :
    Written evals (.expression e) ns := by
  cases p with
  | complete c =>
    cases hf
    exact Written.tree_chain h
  | start n => cases hf
  | operand c op n => cases hf

end Step

/-- The level is what reading the nodes has led to. Only the level of a call has arguments before
the one that is being read. -/
structure Level.Reached (evals : Evals) (inCall : Bool) (l : Level) (ns : List Node) : Prop where
  inCall_eq : l.inCall = inCall
  parts : ∃ front current, ns = front ++ current ∧ Finished evals l.args front ∧
    l.progress.Reached evals current ∧ (inCall = false → front = [])

section Step
variable {inCall : Bool} {l l' : Level} {ns : List Node}

private theorem Level.reached_empty (evals : Evals) (inCall : Bool) :
    Level.Reached evals inCall { inCall } [] :=
  ⟨rfl, [], [], rfl, .nil, .nil, fun _ => rfl⟩

/-- Reading a node that is no comma changes the progress alone. -/
theorem Level.Reached.step (h : l.Reached evals inCall ns) {p : Progress} {n : Node}
    (hp : ∀ current, l.progress.Reached evals current → p.Reached evals (current ++ [n])) :
    Level.Reached evals inCall { l with progress := p } (ns ++ [n]) := by
  obtain ⟨hcall, front, current, rfl, hargs, hcurrent, hfront⟩ := h
  exact ⟨hcall, front, current ++ [n], List.append_assoc .., hargs, hp current hcurrent, hfront⟩

theorem Level.Reached.put (h : l.Reached evals inCall ns) (hl : l.progress.Awaits) {n : Node}
    {e : Expr} (he : Written evals (.primary e) [n]) :
    Level.Reached evals inCall { l with progress := l.progress.put e } (ns ++ [n]) :=
  h.step fun _ hc => hc.put hl he

theorem Level.Reached.expression (h : l.Reached evals false ns) {e : Expr}
    (hf : l.progress.finish = .ok e) : Written evals (.expression e) ns := by
  obtain ⟨-, front, current, rfl, -, hcurrent, hfront⟩ := h
  cases hfront rfl
  exact hcurrent.finish hf

private theorem Level.nextArgument_eq_ok (h : l.nextArgument = .ok l') :
    ∃ e, l.progress.finish = .ok e ∧
      l' = { l with args := l.args ++ [e], progress := .start 0 } := by
  obtain ⟨e, he, hl⟩ := bind_eq_ok.mp h
  cases hl
  exact ⟨e, he, rfl⟩

theorem Level.Reached.arguments (h : l.Reached evals true ns) (hn : l.nextArgument = .ok l') :
    Written evals (.arguments l'.args) ns := by
  obtain ⟨e, hf, rfl⟩ := Level.nextArgument_eq_ok hn
  obtain ⟨-, front, current, rfl, hargs, hcurrent, -⟩ := h
  exact hargs.append (.lastArgument (hcurrent.finish hf))

private theorem reached_readOperator {c : Chain} {n : Node} (h : l.Reached evals inCall ns)
    (hp : l.progress = .complete c) (hr : readOperator l c n = .ok l') :
    l'.Reached evals inCall (ns ++ [n]) := by
  rw [readOperator] at hr
  split at hr
  next op hop =>
    cases hr
    refine h.step ?_
    intro current hcurrent
    rw [hp] at hcurrent
    exact ⟨current, n, [], rfl, hcurrent, hop, .nil⟩
  next =>
    split at hr
    next hcomma =>
      obtain ⟨hcall, hcomma⟩ : l.inCall = true ∧ n.kind = .comma := by simpa using hcomma
      obtain ⟨e, hf, rfl⟩ := Level.nextArgument_eq_ok hr
      obtain ⟨hin, front, current, rfl, hargs, hcurrent, -⟩ := h
      rw [hcall] at hin
      subst hin
      exact ⟨hcall, front ++ current ++ [n], [], by simp, .comma hargs (hcurrent.finish hf) hcomma,
        .nil, nofun⟩
    next => cases hr

private theorem returns_reference {name : String} {e : Expr}
    (h : Returns (reference evals name) e) : e = named evals name := by
  obtain ⟨s, s', h⟩ := h
  obtain ⟨s₁, h₁⟩ := yields_reference name s
  rw [h₁] at h
  cases h
  rfl

private theorem reached_readOperand {t : Token} (h : l.Reached evals inCall ns)
    (hl : l.progress.Awaits) (hr : Returns (readOperand evals l t) l') :
    l'.Reached evals inCall (ns ++ [.token t]) := by
  rw [readOperand] at hr
  split at hr
  next hk =>
    cases hr.of_pure
    exact h.step fun _ hc => hc.minus hl hk
  next hk =>
    cases hr.of_pure
    exact h.step fun _ hc => hc.plus hl hk
  next hk =>
    cases hr.of_pure
    exact h.put hl (.number hk)
  next hk =>
    cases hr.of_pure
    exact h.put hl (.quoted (by rw [hk]; rfl))
  next hk =>
    cases hr.of_pure
    exact h.put hl (.quoted (by rw [hk]; rfl))
  next hk =>
    cases hr.of_pure
    exact h.put hl (.moment (.inl hk))
  next hk =>
    cases hr.of_pure
    exact h.put hl (.moment (.inr hk))
  next hk =>
    obtain ⟨e, he, hr⟩ := hr.of_bind
    cases hr.of_pure
    cases returns_reference he
    exact h.put hl (.word hk)
  next hk =>
    obtain ⟨e, he, hr⟩ := hr.of_bind
    cases hr.of_pure
    cases returns_reference he
    exact h.put hl (.param hk)
  next =>
    split at hr
    · exact absurd hr not_returns_throw
    · exact absurd hr not_returns_throw
  next => exact absurd hr not_returns_throw

end Step

mutual

/-- A node that is read goes on with what has been written, by recursion into groups. -/
theorem reached_readNode (n : Node) {inCall : Bool} {l l' : Level} {ns : List Node}
    (h : l.Reached evals inCall ns) (hr : Returns (readNode evals l n) l') :
    l'.Reached evals inCall (ns ++ [n]) := by
  by_cases hl : l.progress.Awaits
  · match n with
    | .token t =>
      rw [readNode_token hl] at hr
      exact reached_readOperand h hl hr
    | .group kind source span children =>
      cases kind with
      | root | bracket opening closing =>
        rw [readNode_bracket hl rfl] at hr
        obtain ⟨inner, hinner, hr⟩ := hr.of_bind
        obtain ⟨e, he, hr⟩ := hr.of_bind
        cases hr.of_pure
        have hinside := reached_readNodes children (Level.reached_empty evals false) hinner
        exact h.put hl (.bracket rfl (hinside.expression he.of_lift))
      | function name opening closing =>
        rw [readNode_call hl] at hr
        split at hr
        next hempty =>
          cases hr.of_pure
          cases List.isEmpty_iff.mp hempty
          exact h.put hl (.emptyCall name opening closing source span)
        next =>
          split at hr
          next => exact absurd hr not_returns_throw
          next =>
            obtain ⟨inner, hinner, hr⟩ := hr.of_bind
            obtain ⟨next, hnext, hr⟩ := hr.of_bind
            cases hr.of_pure
            have hinside := reached_readNodes children (Level.reached_empty evals true) hinner
            exact h.put hl (.call (hinside.arguments hnext.of_lift))
      | pipe bar command | clause keyword =>
        cases hp : l.progress with
        | complete c => simp [hp, Progress.Awaits] at hl
        | _ =>
          simp only [readNode, hp] at hr
          exact absurd hr not_returns_throw
  · cases hp : l.progress with
    | complete c =>
      rw [readNode_complete hp] at hr
      exact reached_readOperator h hp hr.of_lift
    | _ => simp [hp, Progress.Awaits] at hl

private theorem reached_readNodes (ms : List Node) {inCall : Bool} {l l' : Level} {ns : List Node}
    (h : l.Reached evals inCall ns) (hr : Returns (readNodes evals l ms) l') :
    l'.Reached evals inCall (ns ++ ms) := by
  match ms with
  | [] =>
    rw [readNodes] at hr
    cases hr.of_pure
    rwa [List.append_nil]
  | m :: ms =>
    rw [readNodes] at hr
    obtain ⟨l₁, h₁, hr⟩ := hr.of_bind
    rw [List.append_cons]
    exact reached_readNodes ms (reached_readNode m h h₁) hr

end

theorem written_of_run {index : FieldIndex} {nodes : List Node} {e : Expr}
    (h : (run index evals nodes).1 = .ok e) : Written evals (.expression e) nodes := by
  have hreturns : Returns (read evals nodes) e := ⟨index, (run index evals nodes).2, Prod.ext h rfl⟩
  obtain ⟨l, hl, hf⟩ := hreturns.of_bind
  exact (reached_readNodes nodes (Level.reached_empty evals false) hl).expression hf.of_lift

theorem run_of_written {nodes : List Node} {e : Expr} (h : Written evals (.expression e) nodes)
    (index : FieldIndex) : (run index evals nodes).1 = .ok e := by
  obtain ⟨c, rfl, hc⟩ := reads_of_written h
  have hyields : Yields (read evals nodes) c.tree := (hc _ rfl).bind (Yields.lift rfl)
  obtain ⟨index', hrun⟩ := hyields index
  exact congrArg Prod.fst hrun

/-- Nodes are read to one chain at most. -/
theorem Written.chain_unique {c d : Chain} {nodes : List Node} (hc : Written evals (.chain c) nodes)
    (hd : Written evals (.chain d) nodes) : c = d := by
  obtain ⟨index, hc⟩ := reads_of_written hc { inCall := false } rfl {}
  obtain ⟨index', hd⟩ := reads_of_written hd { inCall := false } rfl {}
  rw [hc] at hd
  cases hd
  rfl

end

/-- Reading succeeds exactly on the nodes that the grammar accepts, whatever expressions have names.
Without named expressions the result is that of a precedence tree over the operands and operators in
the order in which they are written, on every level of brackets, and there is only one such tree. -/
theorem run_precedence_tree (index : FieldIndex) (nodes : List Node) :
    (∀ evals, (∃ e, (run index evals nodes).1 = .ok e) ↔ Accepted .expression nodes) ∧
      (∀ e, (run index {} nodes).1 = .ok e ↔
        ∃ t : OpTree, t.Ordered ∧ Written {} (.chain t.inorder) nodes ∧ t.expr = e) ∧
      ∀ t u : OpTree, t.Ordered → Written {} (.chain t.inorder) nodes →
        u.Ordered → Written {} (.chain u.inorder) nodes → t = u := by
  refine ⟨fun evals => ⟨?_, ?_⟩, fun e => ⟨?_, ?_⟩, ?_⟩
  · rintro ⟨e, he⟩
    exact accepted_of_written (written_of_run he)
  · intro h
    obtain ⟨c, hc⟩ := @exists_written evals _ _ h
    exact ⟨c.tree, run_of_written hc.tree_chain index⟩
  · intro he
    cases written_of_run he with
    | tree ordered chain => exact ⟨_, ordered, chain, rfl⟩
  · rintro ⟨t, ordered, chain, rfl⟩
    exact run_of_written (.tree ordered chain) index
  · intro t u ht hct hu hcu
    rw [← OpTree.ofChain_inorder ht, hct.chain_unique hcu, OpTree.ofChain_inorder hu]

namespace Sample

def nodes : List Node :=
  match Group.ofTokens (Lexer.tokens "a - - b ^ c ^ d") with
  | .ok root => root.children
  | .error _ => []

def power : BinaryOp := .arith .power

def tree : OpTree :=
  .node (.arith .subtract) (.operand (.field "a"))
    (.node power (.operand (.negate (.field "b")))
      (.node power (.operand (.field "c")) (.operand (.field "d"))))

end Sample

open Sample in
theorem run_precedence_tree_sample : (run {} {} nodes).1 = .ok tree.expr ∧
    Accepted .expression nodes ∧
    ∃ t : OpTree, (t.Ordered ∧ Written {} (.chain t.inorder) nodes ∧ t.expr = tree.expr) ∧
      ∀ u : OpTree, u.Ordered → Written {} (.chain u.inorder) nodes → u = t := by
  have hrun : (run {} {} nodes).1 = .ok tree.expr := eq_ok_of_toOption (by decide +kernel)
  obtain ⟨haccepted, htree, hunique⟩ := run_precedence_tree {} nodes
  obtain ⟨t, ht⟩ := (htree tree.expr).mp hrun
  exact ⟨hrun, (haccepted {}).mp ⟨_, hrun⟩, t, ht, fun u hu hcu => hunique u t hu hcu ht.1 ht.2.1⟩

end Scalar

end PipeQuery
