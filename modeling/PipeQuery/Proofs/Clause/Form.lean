import PipeQuery.Proofs.Clause.Entry
import PipeQuery.Proofs.Draft.Past

/-!
The two forms of a clause, with its keyword and with a pipe. What a clause means hangs on its
children alone. Only faults show the group itself, so queries that differ in the forms of their
clauses have one request.
-/
namespace PipeQuery

/-- What the reader gives hangs on the children of a group alone. Its faults may show the group. -/
def ReadsChildren {α : Type} (read : Group → Except SyntaxError α) : Prop :=
  ∀ g g' a, g.children = g'.children → read g = .ok a → read g' = .ok a

namespace ReadsChildren
variable {α β : Type}

theorem of_eq {read : Group → Except SyntaxError α}
    (h : ∀ g g', g.children = g'.children → read g = read g') : ReadsChildren read :=
  fun g g' _ hchildren hread => h g g' hchildren ▸ hread

theorem pure (a : α) : ReadsChildren fun _ => Except.ok a := of_eq fun _ _ _ => rfl

theorem bind {read : Group → Except SyntaxError α} {next : α → Group → Except SyntaxError β}
    (hread : ReadsChildren read) (hnext : ∀ a, ReadsChildren (next a)) :
    ReadsChildren fun g => read g >>= fun a => next a g := by
  intro g g' b hchildren h
  obtain ⟨a, ha, hb⟩ := bind_eq_ok.mp h
  exact bind_eq_ok.mpr ⟨a, hread g g' a hchildren ha, hnext a g g' b hchildren hb⟩

end ReadsChildren

private theorem SourceClause.readsChildren (services : Services) :
    ReadsChildren (read services) := by
  rintro ⟨kind, source, span, children⟩ ⟨kind', source', span', _⟩ doc rfl h
  cases children with
  | nil => cases h
  | cons name rest => exact h

private theorem EvalClause.readsChildren : ReadsChildren read := by
  rintro ⟨kind, source, span, children⟩ ⟨kind', source', span', _⟩ r rfl h
  cases children with
  | nil => cases h
  | cons name rest => exact h

private theorem WindowClause.readsChildren_readSize (nodes : List Node) :
    ReadsChildren (readSize · nodes) := by
  intro g g' r _ h
  simp only [readSize] at h ⊢
  split at h
  · cases h
  · exact h

private theorem WindowClause.readsChildren : ReadsChildren read := by
  intro g g' w hchildren h
  rw [read] at h ⊢
  rw [← hchildren]
  cases hnodes : g.children with
  | nil =>
    rw [hnodes] at h
    cases h
  | cons field nodes =>
    simp only [hnodes] at h ⊢
    split at h
    next hfield =>
      rw [if_pos hfield]
      obtain ⟨r, hsize, hrest⟩ := bind_eq_ok.mp h
      exact bind_eq_ok.mpr ⟨r, readsChildren_readSize nodes g g' r hchildren hsize, hrest⟩
    next => cases h

private theorem Visual.readsChildren (table : Table) : ReadsChildren (read · table) := by
  rintro ⟨kind, source, span, children⟩ ⟨kind', source', span', _⟩ visual rfl h
  cases children with
  | nil => cases h
  | cons node rest =>
    cases rest with
    | nil => exact h
    | cons extra rest => cases h

namespace SelectClause
variable {scalar scalar' : Node → Except SyntaxError Expr}

/-- Another reader of calls that gives the same trees changes no reading of a node. -/
theorem readNode_mono (hscalar : ∀ n e, scalar n = .ok e → scalar' n = .ok e) {p p' : Progress}
    {n : Node} (h : readNode scalar p n = .ok p') : readNode scalar' p n = .ok p' := by
  unfold readNode at h ⊢
  split at h
  next hcall =>
    rw [if_pos hcall]
    cases p with
    | nothing =>
      obtain ⟨e, he, hp⟩ := bind_eq_ok.mp h
      exact bind_eq_ok.mpr ⟨e, hscalar n e he, hp⟩
    | _ => cases h
  next hcall =>
    rw [if_neg hcall]
    exact h

private theorem readNodes_mono (hscalar : ∀ n e, scalar n = .ok e → scalar' n = .ok e)
    {p : Progress} {ns : List Node} {selections : List Selection}
    (h : readNodes scalar p ns = (selections, none)) :
    readNodes scalar' p ns = (selections, none) := by
  induction ns generalizing p selections with
  | nil => exact h
  | cons n ns ih =>
    rw [readNodes] at h ⊢
    split at h
    next hcomma =>
      rw [if_pos hcomma]
      cases hp : p.finish? with
      | none =>
        rw [hp] at h
        cases h
      | some s =>
        simp only [hp] at h ⊢
        cases hrest : readNodes scalar .nothing ns with
        | mk rest fault =>
          rw [hrest] at h
          cases h
          rw [ih hrest]
    next hcomma =>
      rw [if_neg hcomma]
      cases hn : readNode scalar p n with
      | error e =>
        rw [hn] at h
        cases h
      | ok p' =>
        rw [hn] at h
        rw [readNode_mono hscalar hn]
        exact ih h

end SelectClause

namespace Draft

private theorem readsChildren_readScalar (ctx : Context) (d : Draft) (nodes : List Node) :
    ReadsChildren (d.readScalar ctx · nodes) := by
  intro g g' e _ h
  simp only [readScalar] at h ⊢
  split at h
  · exact h
  · cases h

private theorem readsChildren_readEval (ctx : Context) (d : Draft) :
    ReadsChildren (d.readEval ctx) :=
  EvalClause.readsChildren.bind fun r =>
    (readsChildren_readScalar ctx d r.2).bind fun _ => .pure _

private theorem readsChildren_readSelect (ctx : Context) (d : Draft) :
    ReadsChildren (d.readSelect ctx) := by
  intro g g' d₁ hchildren h
  rw [readSelect] at h ⊢
  rw [SelectClause.read] at h ⊢
  cases hnodes : SelectClause.readNodes (fun n => d.readScalar ctx g [n]) .nothing g.children with
  | mk selections fault =>
    rw [hnodes] at h
    obtain ⟨d₂, hd₂, hfault⟩ := bind_eq_ok.mp h
    cases fault with
    | some e => cases hfault
    | none =>
      have hscalar : ∀ n e, d.readScalar ctx g [n] = .ok e → d.readScalar ctx g' [n] = .ok e :=
        fun n e => readsChildren_readScalar ctx d [n] g g' e hchildren
      rw [← hchildren, SelectClause.readNodes_mono hscalar hnodes]
      exact bind_eq_ok.mpr ⟨d₂, hd₂, hfault⟩

/-- Clauses without conditions, with the visualisations of this library. -/
theorem readsChildren_readPlain (ctx : Context) (d : Draft) (clause : Clause)
    (hvisual : ∀ table, ReadsChildren (ctx.services.readVisual · table)) :
    ReadsChildren (d.readPlain ctx clause) := by
  cases clause with
  | source => exact (SourceClause.readsChildren ctx.services).bind fun _ => .pure _
  | eval => exact readsChildren_readEval ctx d
  | window => exact WindowClause.readsChildren.bind fun _ => .pure _
  | sort => exact .of_eq fun g g' h => by simp only [readPlain, SortClause.read, h]
  | group => exact .of_eq fun g g' h => by simp only [readPlain, GroupClause.read, h]
  | select => exact readsChildren_readSelect ctx d
  | limit => exact .of_eq fun g g' h => by simp only [readPlain, LimitClause.read, h]
  | present => exact (hvisual d.table).bind fun _ => .pure _
  | restrict | filter | having => exact .pure d

/-- The condition of a clause is the same in both forms, and so are the names that it refers to. -/
theorem readCondition_children {ctx : Context} {note : Bool} {g g' : Group}
    {extensions : List Extension} {op : Operator} {fields : List HavingField}
    (hchildren : g.children = g'.children)
    (h : readCondition ctx note g extensions = .ok (op, fields)) :
    ∃ fields', readCondition ctx note g' extensions = .ok (op, fields') ∧
      fields.map (·.name) = fields'.map (·.name) := by
  have hread : ConditionClause.read ctx note g' extensions =
      ConditionClause.read ctx note g extensions := by
    simp only [ConditionClause.read, hchildren]
  rw [readCondition] at h ⊢
  rw [hread]
  cases hrun : (ConditionClause.read ctx note g extensions).run [] with
  | mk result names =>
    rw [hrun] at h
    cases result with
    | error e => cases h
    | ok op' =>
      cases h
      refine ⟨names.map (⟨·, g'.place⟩), rfl, ?_⟩
      simp only [List.map_map, Function.comp_def]

section
variable {ctx : Context} (hvisual : ∀ table, ReadsChildren (ctx.services.readVisual · table))
include hvisual

/-- A clause is read alike in both forms. -/
theorem alike_form {c c' : ClauseGroup} {extensions : List Extension} {d d₁ : Draft}
    (hclause : c'.clause = c.clause) (hchildren : c.group.children = c'.group.children)
    (h : d.readClause ctx c extensions = .ok d₁) :
    ∃ d₁', d.readClause ctx c' extensions = .ok d₁' ∧ Alike d₁ d₁' := by
  obtain ⟨clause, place, g⟩ := c
  obtain ⟨clause', place', g'⟩ := c'
  cases hclause
  cases clause with
  | restrict | filter =>
    obtain ⟨⟨op, fields⟩, hop, hd⟩ := bind_eq_ok.mp h
    cases hd
    obtain ⟨fields', hop', -⟩ := readCondition_children hchildren hop
    exact ⟨_, bind_eq_ok.mpr ⟨(op, fields'), hop', rfl⟩, .refl _⟩
  | having =>
    obtain ⟨⟨op, fields⟩, hop, hd⟩ := bind_eq_ok.mp h
    cases hd
    obtain ⟨fields', hop', hnames⟩ := readCondition_children hchildren hop
    refine ⟨_, bind_eq_ok.mpr ⟨(op, fields'), hop', rfl⟩, d.consumed, d.having ++ fields', .refl _,
      ?_, rfl⟩
    simp only [List.map_append, hnames]
  | _ =>
    obtain ⟨d₂, hplain, hrest⟩ := bind_eq_ok.mp h
    have hplain' := readsChildren_readPlain ctx d _ hvisual g g' d₂ hchildren
      (Result.ofExcept_eq_ok.mp hplain)
    exact ⟨d₁, bind_eq_ok.mpr ⟨d₂, Result.ofExcept_eq_ok.mpr hplain', hrest⟩, .refl _⟩

private theorem readAlike_form {g g' : Group} {c : Clause} (hg : g.Starts c) (hg' : g'.Starts c)
    (hchildren : g.children = g'.children) (extensions : List Extension) :
    ReadAlike ctx (g.toNode, extensions) (g'.toNode, extensions) := by
  intro k hk
  obtain ⟨place, hgroup⟩ := Node.exists_clauseGroup hg
  obtain ⟨place', hgroup'⟩ := Node.exists_clauseGroup hg'
  cases hgroup.symm.trans hk
  refine ⟨_, hgroup', rfl, fun d d₁ h => ?_⟩
  refine alike_form hvisual ?_ hchildren h
  rfl

end

end Draft

/-- The nodes start the same clause, each in one of its forms, and hold the same; or they are one
connective pipe. -/
inductive Node.Corresponds : Node → Node → Prop
  | clause {g g' : Group} {c : Clause} (hg : g.Starts c) (hg' : g'.Starts c)
      (hchildren : g.children = g'.children) : Corresponds g.toNode g'.toNode
  | pipe {n : Node} (hn : n.extension?.isSome) : Corresponds n n

theorem Node.Corresponds.symm {n n' : Node} (h : n.Corresponds n') : n'.Corresponds n := by
  cases h with
  | clause hg hg' hchildren => exact .clause hg' hg hchildren.symm
  | pipe hn => exact .pipe hn

section
variable {ctx : Context} (hvisual : ∀ table, ReadsChildren (ctx.services.readVisual · table))
include hvisual

/-- Corresponding nodes fall into corresponding entries. -/
theorem attachExtensions_corresponds {ns ns' : List Node}
    (h : List.Forall₂ Node.Corresponds ns ns') :
    (attachExtensions ns).1 = (attachExtensions ns').1 ∧
      List.Forall₂ (Draft.ReadAlike ctx) (attachExtensions ns).2 (attachExtensions ns').2 := by
  induction h with
  | nil => exact ⟨rfl, .nil⟩
  | cons hn _ ih =>
    obtain ⟨hleading, hentries⟩ := ih
    cases hn with
    | clause hg hg' hchildren =>
      rw [attachExtensions_cons (Node.extension?_of_starts hg),
        attachExtensions_cons (Node.extension?_of_starts hg'), hleading]
      exact ⟨rfl, .cons (Draft.readAlike_form hvisual hg hg' hchildren _) hentries⟩
    | pipe hp =>
      obtain ⟨e, he⟩ := Option.isSome_iff_exists.mp hp
      simp only [attachExtensions, he, hleading]
      exact ⟨trivial, hentries⟩

private theorem compileRoot_of_corresponds {root root' : Group} {request : SearchRequest}
    (h : List.Forall₂ Node.Corresponds root.children root'.children)
    (hroot : compileRoot ctx root = .ok request) : compileRoot ctx root' = .ok request := by
  obtain ⟨hleading, hentries⟩ := attachExtensions_corresponds hvisual h
  obtain ⟨d, hd, hfinish⟩ := bind_eq_ok.mp hroot
  obtain ⟨hnone, hread⟩ := Draft.ofRoot_eq_ok_iff.mp hd
  obtain ⟨d', hread', hd'⟩ := Draft.alike_readEntries hentries (.refl {}) hread
  refine bind_eq_ok.mpr ⟨d', Draft.ofRoot_eq_ok_iff.mpr ⟨hleading ▸ hnone, hread'⟩, ?_⟩
  exact Result.ofExcept_eq_ok.mpr (Draft.alike_finish hd' (Result.ofExcept_eq_ok.mp hfinish))

end

/-- The form of its clauses does not matter to a query. Take two root groups whose children
correspond: each pair starts the same clause, with the keyword or with a command for it, and holds
the same nodes, or is one connective pipe. With the readers of this library one of them compiles
exactly if the other one does, and they have the same request. -/
theorem compileRoot_corresponds {root root' : Group}
    (h : List.Forall₂ Node.Corresponds root.children root'.children) (catalog : Catalog)
    (base : BaseRequest) (reference : Instant) (request : SearchRequest) :
    compileRoot ⟨.ofCatalog catalog, base, reference⟩ root = .ok request ↔
      compileRoot ⟨.ofCatalog catalog, base, reference⟩ root' = .ok request := by
  have hvisual (table : Table) :
      ReadsChildren ((Services.ofCatalog catalog).readVisual · table) :=
    (Visual.readsChildren table).bind fun _ => .pure _
  constructor
  · exact compileRoot_of_corresponds hvisual h
  · exact compileRoot_of_corresponds hvisual (h.flip.imp fun _ _ hn => hn.symm)

namespace Form.Sample

def query : String := "from a where b=1|or c=2 select b"

def token (kind : TokenKind) (start stop : Nat) : Token := ⟨kind, query, ⟨start, stop⟩⟩

def keyword (c : Clause) (start stop : Nat) : GroupKind := .clause (token (.clause c) start stop)

/-- A pipe that is not in the text. -/
def command (name : String) : GroupKind :=
  .pipe ⟨.pipe, "|", ⟨0, 1⟩⟩ ⟨.command, name, ⟨0, name.length⟩⟩

def equality (start : Nat) : List Node :=
  [.token (token .word start (start + 1)),
    .token (token (.relation .equal) (start + 1) (start + 2)),
    .token (token .number (start + 2) (start + 3))]

def source : Group := ⟨keyword .source 0 4, query, ⟨0, 6⟩, [.token (token .word 5 6)]⟩

def restrict (kind : GroupKind) : Group := ⟨kind, query, ⟨7, 16⟩, equality 13⟩

def pipe : Node :=
  .group (.pipe (token .pipe 16 17) (token .command 17 19)) query ⟨16, 23⟩ (equality 20)

def select (kind : GroupKind) : Group := ⟨kind, query, ⟨24, 32⟩, [.token (token .word 31 32)]⟩

def root (first second : GroupKind) : Group :=
  ⟨.root, query, ⟨0, 32⟩, [source.toNode, (restrict first).toNode, pipe, (select second).toNode]⟩

end Form.Sample

open Form.Sample in
theorem compileRoot_corresponds_sample :
    rootOf query = .ok (root (keyword .restrict 7 12) (keyword .select 24 30)) ∧
      ∃ request,
        compileRoot .sample (root (keyword .restrict 7 12) (keyword .select 24 30)) =
          .ok request ∧
        compileRoot .sample (root (command "where") (command "table")) = .ok request := by
  have hnodes : List.Forall₂ Node.Corresponds
      (root (keyword .restrict 7 12) (keyword .select 24 30)).children
      (root (command "where") (command "table")).children := by
    refine .cons (.clause (.keyword _ rfl rfl) (.keyword _ rfl rfl) rfl) ?_
    refine .cons (.clause (c := .restrict) (.keyword _ rfl rfl)
      (.command _ _ .restrict rfl (by decide +kernel) rfl) rfl) ?_
    refine .cons (.pipe (by decide +kernel)) ?_
    exact .cons (.clause (c := .select) (.keyword _ rfl rfl)
      (.command _ _ .table rfl (by decide +kernel) rfl) rfl) .nil
  refine ⟨eq_ok_of_toOption (by decide +kernel), ?_⟩
  have hok : (compileRoot .sample (root (keyword .restrict 7 12) (keyword .select 24 30))).isOk =
      true := by decide +kernel
  obtain ⟨request, h⟩ := exists_eq_ok_of_isOk hok
  exact ⟨request, h, (compileRoot_corresponds hnodes .sample {} ⟨0, 0⟩ request).mp h⟩

end PipeQuery
