import PipeQuery.Proofs.Scalar.Grammar

/-!
The index of fields over many readings. Readings share the index and the named expressions, and one
that fails leaves in the index what it has read by then. Over every run of readings the names and
the positions in the index agree, and they cover the fields of all expressions that came out.
-/
namespace PipeQuery

namespace FieldIndex

structure Consistent (index : FieldIndex) : Prop where
  nodup : index.names.Nodup
  get?_iff : ∀ name i, index.get? name = some i ↔ index.names[i]? = some name

private theorem consistent_empty : Consistent {} := by
  constructor
  · exact List.nodup_nil
  · intro name i
    constructor
    · intro h
      cases h
    · intro h
      cases h

private theorem Consistent.get?_eq_none_iff {index : FieldIndex} (h : index.Consistent)
    (name : String) : index.get? name = none ↔ name ∉ index.names := by
  rw [List.mem_iff_getElem?]
  constructor
  · rintro hnone ⟨i, hi⟩
    rw [(h.get?_iff name i).mpr hi] at hnone
    cases hnone
  · intro hnot
    cases hget : index.get? name with
    | none => rfl
    | some i => exact absurd ⟨i, (h.get?_iff name i).mp hget⟩ hnot

private theorem insert_of_mem {index : FieldIndex} (h : index.Consistent) {name : String}
    (hmem : name ∈ index.names) : index.insert name = index := by
  obtain ⟨i, hi⟩ := List.mem_iff_getElem?.mp hmem
  rw [insert, create, (h.get?_iff name i).mpr hi]

private theorem insert_of_notMem {index : FieldIndex} (h : index.Consistent) {name : String}
    (hnot : name ∉ index.names) : index.insert name =
      ⟨index.names ++ [name], index.positions.insert name index.names.length⟩ := by
  rw [insert, create, (h.get?_eq_none_iff name).mpr hnot]

/-- The step: a new name comes last, and gets the position that it has there. -/
theorem Consistent.insert {index : FieldIndex} (h : index.Consistent) (name : String) :
    (index.insert name).Consistent := by
  by_cases hmem : name ∈ index.names
  · rwa [insert_of_mem h hmem]
  · rw [insert_of_notMem h hmem]
    constructor
    · refine List.nodup_append.mpr ⟨h.nodup, by simp, ?_⟩
      rintro other hother _ hlast rfl
      exact hmem (List.mem_singleton.mp hlast ▸ hother)
    · intro other i
      rw [get?, Bindings.get?_insert, List.getElem?_append]
      by_cases hother : other = name
      · subst hother
        rw [if_pos rfl]
        constructor
        · intro hlast
          cases hlast
          simp
        · intro hi
          split at hi
          next hlt => exact absurd (List.mem_of_getElem? hi) hmem
          next hle =>
            rw [List.getElem?_singleton] at hi
            split at hi
            next hzero =>
              rw [Option.some_inj]
              omega
            next => cases hi
      · rw [if_neg hother]
        refine (h.get?_iff other i).trans ?_
        split
        next => rfl
        next hle =>
          rw [List.getElem?_eq_none (by omega), List.getElem?_singleton]
          split
          next =>
            rw [Option.some_inj]
            constructor
            · intro hnone
              cases hnone
            · intro heq
              exact absurd heq.symm hother
          next => rfl

def insertAll (index : FieldIndex) (names : List String) : FieldIndex := names.foldl insert index

private theorem insertAll_append (index : FieldIndex) (names more : List String) :
    index.insertAll (names ++ more) = (index.insertAll names).insertAll more :=
  List.foldl_append

/-- The run: the names that are new come after the others, in the order of their first use. -/
theorem Consistent.insertAll {index : FieldIndex} (h : index.Consistent) (names : List String) :
    (index.insertAll names).Consistent ∧ (index.insertAll names).names =
      index.names ++ (names.filter (· ∉ index.names)).eraseDups := by
  induction names generalizing index with
  | nil => exact ⟨h, (List.append_nil _).symm⟩
  | cons name names ih =>
    obtain ⟨hconsistent, hnames⟩ := ih (h.insert name)
    refine ⟨hconsistent, hnames.trans ?_⟩
    by_cases hmem : name ∈ index.names
    · rw [insert_of_mem h hmem, List.filter_cons_of_neg (by simpa using hmem)]
    · rw [insert_of_notMem h hmem, List.filter_cons_of_pos (by simpa using hmem),
        List.eraseDups_cons, List.filter_filter, List.append_assoc, List.singleton_append]
      congr 3
      apply List.filter_congr
      intro other _
      rw [Bool.eq_iff_iff]
      simp [and_comm]

private theorem Consistent.mem_insertAll {index : FieldIndex} (h : index.Consistent)
    {names : List String} {name : String} (hname : name ∈ names) :
    name ∈ (index.insertAll names).names := by
  rw [(h.insertAll names).2, List.mem_append, List.mem_eraseDups, List.mem_filter]
  by_cases hmem : name ∈ index.names
  · exact .inl hmem
  · exact .inr ⟨hname, by simpa using hmem⟩

end FieldIndex

namespace Scalar

/-- The reading puts these names into the index, in this order, and if it fails then some of the
first of them. -/
def Notes {α : Type} (names : List String) (x : Reading α) : Prop :=
  ∀ index, ∃ front, front <+: names ∧ (x.run.run index).2 = index.insertAll front ∧
    ((x.run.run index).1.isOk → front = names)

section Notes
variable {α β : Type} {names more : List String}

theorem Notes.pure (a : α) : Notes [] (Pure.pure a : Reading α) :=
  fun _ => ⟨[], List.prefix_rfl, rfl, fun _ => rfl⟩

theorem Notes.throw (names : List String) (e : ScalarError) :
    Notes names (MonadExcept.throw e : Reading α) := by
  refine fun _ => ⟨[], List.nil_prefix, rfl, ?_⟩
  intro hok
  cases hok

/-- What is no reading itself notes nothing. -/
theorem Notes.lift {x : Except ScalarError α} (h : x.isOk → names = []) :
    Notes names (liftM x : Reading α) := by
  cases x with
  | error e => exact .throw names e
  | ok a =>
    rw [h rfl]
    exact .pure a

theorem Notes.bind {x : Reading α} {f : α → Reading β} (hx : Notes names x)
    (hf : ∀ a, Notes more (f a)) : Notes (names ++ more) (x >>= f) := by
  intro index
  obtain ⟨front, hfront, hindex, hall⟩ := hx index
  cases hrun : (x.run.run index).1 with
  | error e =>
    rw [run_bind_of_eq_error (Prod.ext hrun hindex)]
    refine ⟨front, hfront.trans (List.prefix_append _ _), rfl, ?_⟩
    intro hok
    cases hok
  | ok a =>
    obtain rfl : front = names := hall (by rw [hrun]; rfl)
    obtain ⟨front', hfront', hindex', hall'⟩ := hf a (index.insertAll front)
    have hfirst : x.run.run index = (.ok a, index.insertAll front) := Prod.ext hrun hindex
    rw [run_bind_of_eq_ok hfirst]
    refine ⟨front ++ front', (List.prefix_append_right_inj _).mpr hfront', ?_, ?_⟩
    · rw [hindex', FieldIndex.insertAll_append]
    · intro hok
      rw [hall' hok]

/-- Steps after the last name note nothing more. -/
theorem Notes.bind_nil {x : Reading α} {f : α → Reading β} (hx : Notes names x)
    (hf : ∀ a, Notes [] (f a)) : Notes names (x >>= f) := by
  have hbind := hx.bind hf
  rwa [List.append_nil] at hbind

end Notes

end Scalar

def Token.reference? (t : Token) : Option String :=
  match t.kind with
  | .word => some t.slice
  | .param => some (Scalar.paramName t.slice)
  | _ => none

mutual

/-- The names that a node refers to, from left to right. What a pipe or a clause holds is no part of
an expression. -/
def Node.references : Node → List String
  | .token t => t.reference?.toList
  | .group kind _ _ children =>
    match kind with
    | .root | .bracket .. | .function .. => Node.referencesList children
    | .pipe .. | .clause .. => []

def Node.referencesList : List Node → List String
  | [] => []
  | n :: ns => n.references ++ Node.referencesList ns

end

private theorem Node.referencesList_append (ns ms : List Node) :
    referencesList (ns ++ ms) = referencesList ns ++ referencesList ms := by
  induction ns with
  | nil => rfl
  | cons n ns ih => rw [List.cons_append, referencesList, ih, referencesList, List.append_assoc]

@[simp]
theorem Node.referencesList_singleton (n : Node) : referencesList [n] = n.references := by
  rw [referencesList, referencesList, List.append_nil]

/-- A node of another kind than names, brackets and function calls refers to nothing. -/
theorem Node.references_eq_nil {n : Node} (hword : n.kind ≠ .word) (hparam : n.kind ≠ .param)
    (hbracket : n.kind ≠ .tokenGroup) (hcall : n.kind ≠ .functionGroup) : n.references = [] := by
  cases n with
  | token t =>
    rw [references, Token.reference?]
    split
    next hkind => exact absurd hkind hword
    next hkind => exact absurd hkind hparam
    next => rfl
  | group kind source span children =>
    cases kind with
    | root | bracket => exact absurd rfl hbracket
    | function => exact absurd rfl hcall
    | pipe | clause => rw [references]

namespace Scalar

private theorem references_of_operator {n : Node} (h : (BinaryOp.ofKind? n.kind).isSome) :
    n.references = [] := by
  apply Node.references_eq_nil
  all_goals
    intro hkind
    rw [hkind] at h
    cases h

private theorem references_of_comma {n : Node} (h : n.kind = .comma) : n.references = [] := by
  apply Node.references_eq_nil
  all_goals
    rw [h]
    decide

def unbound (evals : Evals) (names : List String) : List String :=
  names.filter fun name => (evals.get? name).isNone

section
variable (evals : Evals)

private theorem unbound_append (names more : List String) :
    unbound evals (names ++ more) = unbound evals names ++ unbound evals more :=
  List.filter_append names more

private theorem notes_reference (name : String) :
    Notes (unbound evals [name]) (reference evals name) := by
  rw [reference, unbound]
  cases hget : evals.get? name with
  | some e =>
    rw [List.filter_cons_of_neg (by simp [hget]), List.filter_nil]
    exact .pure e
  | none =>
    rw [List.filter_cons_of_pos (by simp [hget]), List.filter_nil]
    exact fun index => ⟨[name], List.prefix_rfl, rfl, fun _ => rfl⟩

private theorem notes_readOperand (l : Level) (t : Token) :
    Notes (unbound evals t.reference?.toList) (readOperand evals l t) := by
  rw [readOperand, Token.reference?]
  cases t.kind with
  | arith op =>
    cases op with
    | subtract | add => exact .pure _
    | _ => exact .throw _ _
  | number | singleQuoted | doubleQuoted | duration | dateTime => exact .pure _
  | word => exact (notes_reference evals t.slice).bind_nil fun e => .pure _
  | param => exact (notes_reference evals (paramName t.slice)).bind_nil fun e => .pure _
  | comma =>
    simp only
    split
    · exact .throw _ _
    · exact .throw _ _
  | _ => exact .throw _ _

/-- A node that is read as an operator, or as the comma after an argument, refers to nothing. -/
theorem references_of_readOperator {l : Level} {chain : Chain} {n : Node}
    (h : (readOperator l chain n).isOk) : n.references = [] := by
  rw [readOperator] at h
  cases hop : BinaryOp.ofKind? n.kind with
  | some op => exact references_of_operator (by rw [hop]; rfl)
  | none =>
    rw [hop] at h
    simp only at h
    split at h
    next hcomma => exact references_of_comma (beq_iff_eq.mp (Bool.and_eq_true_iff.mp hcomma).2)
    next => cases h

mutual

/-- One node, by recursion into groups. -/
theorem notes_readNode (n : Node) (l : Level) :
    Notes (unbound evals n.references) (readNode evals l n) := by
  by_cases hl : l.progress.Awaits
  · match n with
    | .token t =>
      rw [readNode_token hl, Node.references]
      exact notes_readOperand evals l t
    | .group kind source span children =>
      cases kind with
      | root | bracket opening closing =>
        rw [readNode_bracket hl rfl, Node.references]
        refine (notes_readNodes children { inCall := false }).bind_nil fun inner => ?_
        exact (Notes.lift fun _ => rfl).bind_nil fun e => .pure _
      | function name opening closing =>
        rw [readNode_call hl, Node.references]
        split
        next hempty =>
          rw [List.isEmpty_iff.mp hempty, Node.referencesList]
          exact .pure _
        next =>
          split
          · exact .throw _ _
          · refine (notes_readNodes children { inCall := true }).bind_nil fun inner => ?_
            exact (Notes.lift fun _ => rfl).bind_nil fun last => .pure _
      | pipe bar command | clause keyword =>
        cases hp : l.progress with
        | complete chain => simp [hp, Progress.Awaits] at hl
        | _ =>
          simp only [readNode, hp]
          exact .throw _ _
  · cases hp : l.progress with
    | complete chain =>
      rw [readNode_complete hp]
      refine .lift fun hok => ?_
      rw [references_of_readOperator hok]
      rfl
    | _ => simp [hp, Progress.Awaits] at hl

private theorem notes_readNodes (ns : List Node) (l : Level) :
    Notes (unbound evals (Node.referencesList ns)) (readNodes evals l ns) := by
  match ns with
  | [] => exact .pure l
  | n :: ns =>
    rw [readNodes, Node.referencesList, unbound_append]
    exact (notes_readNode n l).bind fun next => notes_readNodes ns next

end

end

/-- Reading an expression puts into the index what its nodes refer to, if no expression has that
name. -/
theorem notes_read (evals : Evals) (nodes : List Node) :
    Notes (unbound evals (Node.referencesList nodes)) (read evals nodes) :=
  (notes_readNodes evals nodes { inCall := false }).bind_nil fun _ => .lift fun _ => rfl

end Scalar

/-! ## The fields of an expression -/

namespace Expr

mutual

def fields : Expr → List String
  | .field name => [name]
  | .text _ | .number _ => []
  | .call _ args => fieldsList args
  | .negate e => e.fields
  | .binary _ left right => left.fields ++ right.fields

def fieldsList : List Expr → List String
  | [] => []
  | e :: es => e.fields ++ fieldsList es

end

end Expr

def Chain.fields (c : Chain) : List String := c.first.fields ++ c.rest.flatMap (·.2.fields)

private theorem Chain.fields_add (c : Chain) (op : BinaryOp) (e : Expr) :
    (c.add op e).fields = c.fields ++ e.fields := by
  simp [fields, add]

private theorem Chain.fields_join (c d : Chain) (op : BinaryOp) :
    (c.join op d).fields = c.fields ++ d.fields := by
  simp [fields, join]

/-- Joining operands keeps their order. -/
theorem OpTree.fields_inorder (t : OpTree) : t.inorder.fields = t.expr.fields := by
  induction t with
  | operand e => simp [inorder, expr, Chain.fields]
  | node op left right ihl ihr => rw [inorder, Chain.fields_join, ihl, ihr, expr, Expr.fields]

namespace Scalar

def Form.fields : Form → List String
  | .primary e | .operand e | .expression e => e.fields
  | .chain c => c.fields
  | .arguments args => Expr.fieldsList args

def fieldsOf (evals : Evals) (names : List String) : List String :=
  names.flatMap fun name => (named evals name).fields

private theorem fieldsOf_append (evals : Evals) (names more : List String) :
    fieldsOf evals (names ++ more) = fieldsOf evals names ++ fieldsOf evals more :=
  List.flatMap_append

section
variable {evals : Evals}

/-- Two parts with a node between them that refers to nothing. -/
theorem fieldsOf_middle {ns ms : List Node} {n : Node} (h : n.references = []) :
    fieldsOf evals (Node.referencesList (ns ++ n :: ms)) =
      fieldsOf evals (Node.referencesList ns) ++ fieldsOf evals (Node.referencesList ms) := by
  rw [Node.referencesList_append, Node.referencesList, h, List.nil_append, fieldsOf_append]

/-- The fields of what nodes stand for are those of the names in the nodes, in the same order. -/
theorem Written.fields_eq {f : Form} {ns : List Node} (h : Written evals f ns) :
    f.fields = fieldsOf evals (Node.referencesList ns) := by
  induction h with
  | number kind =>
    simp [Form.fields, Expr.fields, Node.references, Token.reference?, kind, fieldsOf]
  | @quoted t kind =>
    have hnames : (Node.token t).references = [] := by
      apply Node.references_eq_nil
      all_goals
        intro hkind
        rw [show t.kind = _ from hkind] at kind
        cases kind
    rw [Node.referencesList_singleton, hnames]
    rfl
  | moment kind =>
    rcases kind with kind | kind <;>
      simp [Form.fields, Expr.fields, Node.references, Token.reference?, kind, fieldsOf]
  | word kind | param kind =>
    simp [Form.fields, Node.references, Token.reference?, kind, fieldsOf]
  | @bracket kind source span nodes e bracket _ ih =>
    cases kind with
    | root | bracket =>
      rw [Node.referencesList_singleton, Node.references]
      exact ih
    | _ => cases bracket
  | emptyCall => rfl
  | call _ ih =>
    rw [Node.referencesList_singleton, Node.references]
    exact ih
  | unsigned _ ih => exact ih
  | plus sign _ ih | minus sign _ ih =>
    rw [Node.referencesList, references_of_operator (by rw [Node.kind, sign]; rfl)]
    exact ih
  | first _ ih => simpa [Form.fields, Chain.fields] using ih
  | next _ operator _ ihb iho =>
    rw [fieldsOf_middle (references_of_operator (by rw [operator]; rfl)), ← ihb, ← iho]
    exact Chain.fields_add _ _ _
  | @tree t _ _ _ ih => exact (OpTree.fields_inorder t).symm.trans ih
  | lastArgument _ ih => exact (List.append_nil _).trans ih
  | moreArguments _ comma _ ih ihr =>
    rw [fieldsOf_middle (references_of_comma comma), ← ih, ← ihr]
    rfl

/-- A field of an expression is a name in its nodes that no expression has, or a field of an
expression that has a name. -/
theorem mem_fields_of_run {index : FieldIndex} {nodes : List Node} {e : Expr}
    (h : (run index evals nodes).1 = .ok e) {field : String} (hfield : field ∈ e.fields) :
    field ∈ unbound evals (Node.referencesList nodes) ∨
      ∃ name e', evals.get? name = some e' ∧ field ∈ e'.fields := by
  rw [show e.fields = _ from (written_of_run h).fields_eq] at hfield
  obtain ⟨name, hname, hfield⟩ := List.mem_flatMap.mp hfield
  rw [named] at hfield
  cases hget : evals.get? name with
  | some e' =>
    rw [hget] at hfield
    exact .inr ⟨name, e', hget, hfield⟩
  | none =>
    rw [hget] at hfield
    obtain rfl : field = name := List.mem_singleton.mp hfield
    exact .inl (List.mem_filter.mpr ⟨hname, by rw [hget]; rfl⟩)

end

/-! ## Runs of readings -/

/-- Nodes to be read, and the name for their expression if it is to have one. -/
structure Task where
  nodes : List Node
  name? : Option String := none

/-- What readings have come to so far: the index and the named expressions that they share, and the
expressions that were read. -/
structure History where
  index : FieldIndex := {}
  evals : Evals := {}
  results : List Expr := []

namespace History

def step (h : History) (task : Task) : History :=
  match run h.index h.evals task.nodes with
  | (.error _, index) => { h with index }
  | (.ok e, index) =>
    { index, evals := task.name?.elim h.evals (h.evals.insert · e), results := h.results ++ [e] }

def ofTasks (tasks : List Task) : History := tasks.foldl step {}

/-- What every reading keeps: the index is consistent, and has the fields of all expressions. -/
structure Sound (h : History) : Prop where
  consistent : h.index.Consistent
  results : ∀ e ∈ h.results, e.fields ⊆ h.index.names
  evals : ∀ name e, h.evals.get? name = some e → e.fields ⊆ h.index.names

private theorem sound_empty : Sound {} := by
  refine ⟨FieldIndex.consistent_empty, ?_, ?_⟩
  · intro e he
    cases he
  · intro name e he
    cases he

variable {h : History} {task : Task}

private theorem step_of_error {err : ScalarError}
    (hrun : (run h.index h.evals task.nodes).1 = .error err) :
    h.step task = { h with index := (run h.index h.evals task.nodes).2 } := by
  rw [step]
  split
  next heq => rw [heq]
  next heq =>
    rw [heq] at hrun
    cases hrun

private theorem step_of_ok {e : Expr} (hrun : (run h.index h.evals task.nodes).1 = .ok e) :
    h.step task = ⟨(run h.index h.evals task.nodes).2,
      task.name?.elim h.evals (h.evals.insert · e), h.results ++ [e]⟩ := by
  rw [step]
  split
  next heq =>
    rw [heq] at hrun
    cases hrun
  next heq =>
    rw [heq] at hrun
    cases hrun
    rw [heq]

/-- The index after a reading: names that its nodes refer to come in, in their order, and all of
them if it succeeds. -/
theorem exists_index_step (h : History) (task : Task) :
    ∃ front, (h.step task).index = h.index.insertAll front ∧
      ((run h.index h.evals task.nodes).1.isOk →
        front = unbound h.evals (Node.referencesList task.nodes)) := by
  obtain ⟨front, -, hindex, hall⟩ := notes_read h.evals task.nodes h.index
  refine ⟨front, ?_, hall⟩
  rw [← hindex]
  cases hrun : (run h.index h.evals task.nodes).1 with
  | error err =>
    rw [step_of_error hrun]
    rfl
  | ok e =>
    rw [step_of_ok hrun]
    rfl

/-- The step of a run: what has been found stays as it is, and new names come after the others. -/
theorem Sound.step (hs : h.Sound) (task : Task) :
    (h.step task).Sound ∧ h.index.names <+: (h.step task).index.names := by
  obtain ⟨front, hindex, hall⟩ := exists_index_step h task
  obtain ⟨hconsistent, hnames⟩ := hs.consistent.insertAll front
  rw [← hindex] at hconsistent hnames
  have hgrows : h.index.names <+: (h.step task).index.names := ⟨_, hnames.symm⟩
  have hresults : ∀ e ∈ h.results, e.fields ⊆ (h.step task).index.names :=
    fun e he field hfield => hgrows.subset (hs.results e he hfield)
  have hevals : ∀ name e, h.evals.get? name = some e → e.fields ⊆ (h.step task).index.names :=
    fun name e he field hfield => hgrows.subset (hs.evals name e he hfield)
  refine ⟨?_, hgrows⟩
  cases hrun : (run h.index h.evals task.nodes).1 with
  | error err =>
    rw [step_of_error hrun] at hconsistent hresults hevals ⊢
    exact ⟨hconsistent, hresults, hevals⟩
  | ok e =>
    have hfields : e.fields ⊆ (h.step task).index.names := by
      intro field hfield
      rcases mem_fields_of_run hrun hfield with hmem | ⟨name, e', hget, hmem⟩
      · rw [← hall (by rw [hrun]; rfl)] at hmem
        rw [hindex]
        exact hs.consistent.mem_insertAll hmem
      · exact hevals name e' hget hmem
    rw [step_of_ok hrun] at hconsistent hresults hevals hfields ⊢
    refine ⟨hconsistent, ?_, ?_⟩
    · exact List.forall_mem_append.mpr ⟨hresults, List.forall_mem_singleton.mpr hfields⟩
    · cases hname : task.name? with
      | none => exact hevals
      | some bound =>
        intro name e' hget
        rw [Option.elim_some, Bindings.get?_insert] at hget
        split at hget
        next =>
          cases hget
          exact hfields
        next => exact hevals name e' hget

/-- The run: the invariant holds after any readings, and their names come after the others. -/
theorem Sound.foldl_step (hs : h.Sound) (tasks : List Task) :
    (tasks.foldl History.step h).Sound ∧
      h.index.names <+: (tasks.foldl History.step h).index.names := by
  induction tasks generalizing h with
  | nil => exact ⟨hs, List.prefix_rfl⟩
  | cons task tasks ih =>
    obtain ⟨hnext, hgrows⟩ := hs.step task
    obtain ⟨hsound, hrest⟩ := ih hnext
    exact ⟨hsound, hgrows.trans hrest⟩

/-- The index over whole runs. After any readings from the start no name is in the index twice, the
position of a name is where it is in the list of names, earlier lists of names are the front of it,
and the fields of all expressions that were read or named are in it. A further reading that succeeds
adds exactly the names in its nodes that are new and that no expression has, in the order of their
first use. -/
theorem index_ofTasks (tasks : List Task) :
    let h := ofTasks tasks
    h.index.names.Nodup ∧
    (∀ name i, h.index.get? name = some i ↔ h.index.names[i]? = some name) ∧
    (∀ front, front <+: tasks → (ofTasks front).index.names <+: h.index.names) ∧
    (∀ e ∈ h.results, ∀ field ∈ e.fields, field ∈ h.index.names) ∧
    (∀ name e, h.evals.get? name = some e → ∀ field ∈ e.fields, field ∈ h.index.names) ∧
    ∀ task e, (run h.index h.evals task.nodes).1 = .ok e →
      (ofTasks (tasks ++ [task])).index.names = h.index.names ++
        ((Node.referencesList task.nodes).filter fun name =>
          name ∉ h.index.names ∧ (h.evals.get? name).isNone).eraseDups := by
  intro h
  have hsound : h.Sound := (sound_empty.foldl_step tasks).1
  refine ⟨hsound.consistent.nodup, hsound.consistent.get?_iff, ?_, ?_, ?_, ?_⟩
  · rintro front ⟨back, rfl⟩
    have hback := ((sound_empty.foldl_step front).1.foldl_step back).2
    rwa [← List.foldl_append] at hback
  · intro e he field hfield
    exact hsound.results e he hfield
  · intro name e he field hfield
    exact hsound.evals name e he hfield
  · intro task e hrun
    obtain ⟨front, hindex, hall⟩ := exists_index_step h task
    rw [ofTasks, List.foldl_append]
    change (h.step task).index.names = _
    rw [hindex, (hsound.consistent.insertAll front).2, hall (by rw [hrun]; rfl), unbound,
      List.filter_filter]
    simp only [Bool.decide_and, Bool.decide_eq_true]

namespace Walkthrough

def taskOf (text : String) (name? : Option String) : Task where
  nodes :=
    match Group.ofTokens (Lexer.tokens text) with
    | .ok root => root.children
    | .error _ => []
  name?

/-- The second of them fails after a field. -/
def tasks : List Task := [taskOf "b + a" (some "x"), taskOf "c d" none]

def lastTask : Task := taskOf "max(x, d, a, d)" none

end Walkthrough

open Walkthrough in
theorem index_ofTasks_sample :
    (ofTasks tasks).index.names = ["b", "a", "c"] ∧
      (∃ e, (run (ofTasks tasks).index (ofTasks tasks).evals lastTask.nodes).1 = .ok e) ∧
      (ofTasks (tasks ++ [lastTask])).index.names = ["b", "a", "c", "d"] := by
  have hnames : (ofTasks tasks).index.names = ["b", "a", "c"] := by decide +kernel
  obtain ⟨e, hrun⟩ : ∃ e, (run (ofTasks tasks).index (ofTasks tasks).evals lastTask.nodes).1 =
      .ok e := exists_eq_ok_of_isOk (by decide +kernel)
  obtain ⟨-, -, -, -, -, hstep⟩ := index_ofTasks tasks
  refine ⟨hnames, ⟨e, hrun⟩, ?_⟩
  rw [hstep lastTask e hrun]
  decide +kernel

end History

end Scalar

end PipeQuery
