import PipeQuery.Proofs.Clause.Form
import PipeQuery.Proofs.Filter.Value
import PipeQuery.Proofs.Group.Alone

/-!
What clauses give hangs on what their nodes show, not on where these stand. Every reader gives the
same for the nodes of a clause and for each of these nodes on its own. Only faults point at places.
-/
namespace PipeQuery

/-- The reader gives the same for a group when each of the nodes in it stands on its own. -/
def ReadsAlone {α : Type} (read : Group → Except SyntaxError α) : Prop :=
  ∀ g g', g'.children = g.children.map Node.alone → (read g').toOption = (read g).toOption

namespace ReadsAlone
variable {α β : Type}

theorem pure (a : α) : ReadsAlone fun _ => Except.ok a := fun _ _ _ => rfl

theorem bind {read : Group → Except SyntaxError α} {next : α → Group → Except SyntaxError β}
    (hread : ReadsAlone read) (hnext : ∀ a, ReadsAlone (next a)) :
    ReadsAlone fun g => read g >>= fun a => next a g := by
  intro g g' h
  simp only [toOption_bind, hread g g' h, hnext _ g g' h]

/-- Groups are read alike if their nodes show the same. -/
theorem congr {read : Group → Except SyntaxError α} (hread : ReadsAlone read) {g g' : Group} {a : α}
    (h : g.children.map Node.alone = g'.children.map Node.alone) (hg : read g = .ok a) :
    read g' = .ok a := by
  let between : Group := { g with children := g.children.map Node.alone }
  have hleft := hread g between rfl
  have hright := hread g' between h
  rw [hg] at hleft
  exact eq_ok_of_toOption (hright.symm.trans hleft)

end ReadsAlone

theorem SourceClause.readsAlone (services : Services) : ReadsAlone (read services) := by
  rintro ⟨kind, source, span, children⟩ ⟨kind', source', span', _⟩ rfl
  cases children with
  | nil => rfl
  | cons name rest =>
    cases rest with
    | cons extra rest => rfl
    | nil =>
      simp only [read, readFirst, resolve, List.map_cons, List.map_nil, Node.isString_alone,
        Node.unescaped_alone]
      split
      · cases services.resolveSource name.unescaped with
        | ok doc => rfl
        | error e => rfl
      · rfl

theorem EvalClause.read_alone {g g' : Group} (h : g'.children = g.children.map Node.alone) :
    (read g').toOption = (read g).toOption.map fun r => (r.1, r.2.map Node.alone) := by
  rw [read, read, h]
  cases g.children with
  | nil => rfl
  | cons name rest =>
    cases rest with
    | nil =>
      simp only [List.map_cons, List.map_nil, Node.isString_alone]
      split
      · rfl
      · rfl
    | cons equals body =>
      simp only [List.map_cons, Node.isString_alone, Node.kind_alone, Node.unescaped_alone,
        List.isEmpty_map]
      split
      · split
        · rfl
        · split
          · rfl
          · rfl
      · rfl

namespace WindowClause

private theorem cutAt?_map {α : Type} {p : α → Bool} {f : α → α} (h : ∀ a, p (f a) = p a)
    (as : List α) :
    cutAt? p (as.map f) = (cutAt? p as).map fun r => (r.1.map f, f r.2.1, r.2.2.map f) := by
  induction as with
  | nil => rfl
  | cons a as ih =>
    rw [List.map_cons, cutAt?, cutAt?, h, ih]
    split
    · rfl
    · cases cutAt? p as with
      | none => rfl
      | some r => rfl

private theorem isWord_alone (word : String) (n : Node) : isWord word n.alone = isWord word n := by
  rw [isWord, isWord, Node.isString_alone, Node.unescaped_alone]

def restAlone {α : Type} (r : α × List Node) : α × List Node := (r.1, r.2.map Node.alone)

private theorem takeDuration_alone (part : WindowPart) (before : List Node) (word : Node)
    (after : List Node) :
    (takeDuration part (before.map Node.alone) word.alone (after.map Node.alone)).toOption =
      (takeDuration part before word after).toOption.map restAlone := by
  cases after with
  | nil => rfl
  | cons d rest =>
    simp only [takeDuration, List.map_cons, Node.kind_alone, Node.unescaped_alone]
    split
    · rw [← List.map_append]
      rfl
    · rfl

private theorem readSize_alone (g g' : Group) (nodes : List Node) :
    (readSize g' (nodes.map Node.alone)).toOption = (readSize g nodes).toOption.map restAlone := by
  have hby (n : Node) : (n.alone.kind == .byWord) = (n.kind == .byWord) := by rw [Node.kind_alone]
  rw [readSize, readSize, cutAt?_map hby]
  cases cutAt? (·.kind == .byWord) nodes with
  | none => rfl
  | some r => exact takeDuration_alone .size r.1 r.2.1 r.2.2

private theorem readAdvance_alone (size : String) (nodes : List Node) :
    (readAdvance size (nodes.map Node.alone)).toOption =
      (readAdvance size nodes).toOption.map restAlone := by
  rw [readAdvance, readAdvance, cutAt?_map (isWord_alone "advance")]
  cases cutAt? (isWord "advance") nodes with
  | none => rfl
  | some r => exact takeDuration_alone .advance r.1 r.2.1 r.2.2

private theorem readFunction_alone (nodes : List Node) :
    (readFunction (nodes.map Node.alone)).toOption =
      (readFunction nodes).toOption.map restAlone := by
  rw [readFunction, readFunction, cutAt?_map (isWord_alone "using")]
  cases cutAt? (isWord "using") nodes with
  | none => rfl
  | some r =>
    obtain ⟨before, word, after⟩ := r
    cases after with
    | nil => rfl
    | cons f rest =>
      simp only [Option.map_some, List.map_cons, Node.unescaped_alone, ← List.map_append]
      rfl

theorem readsAlone : ReadsAlone read := by
  intro g g' h
  rw [read, read, h]
  cases g.children with
  | nil => rfl
  | cons field nodes =>
    simp only [List.map_cons, Node.isString_alone, Node.unescaped_alone]
    split
    · simp only [toOption_bind, readSize_alone g g', readAdvance_alone, readFunction_alone,
        Option.bind_map, Function.comp_def, restAlone]
      refine Option.bind_congr fun r _ => Option.bind_congr fun r' _ => Option.bind_congr ?_
      intro r'' _
      cases r''.2 with
      | nil => rfl
      | cons extra rest => rfl
    · rfl

end WindowClause

private theorem dropBy_alone (ns : List Node) :
    dropBy (ns.map Node.alone) = (dropBy ns).map Node.alone := by
  cases ns with
  | nil => rfl
  | cons n ns =>
    rw [List.map_cons, dropBy, dropBy, Node.kind_alone]
    split
    · rfl
    · rfl

theorem SortClause.readNodes_alone (p : Progress) (ns : List Node) :
    (readNodes p (ns.map Node.alone)).toOption = (readNodes p ns).toOption := by
  induction ns generalizing p with
  | nil => rfl
  | cons n ns ih =>
    unfold readNodes
    simp only [List.map_cons, Node.isString_alone, Node.kind_alone, Node.unescaped_alone]
    split
    · cases p with
      | nothing => exact ih _
      | field name =>
        cases SortDirection.ofText? n.unescaped with
        | some direction => exact ih _
        | none => rfl
      | directed name direction => rfl
    · split
      · cases p.finish? with
        | some key => simp only [toOption_bind, ih]
        | none => rfl
      · rfl

theorem SortClause.readsAlone : ReadsAlone read := by
  intro g g' h
  rw [read, h, dropBy_alone, readNodes_alone, read]

theorem GroupClause.readNodes_alone (field : Option String) (ns : List Node) :
    (readNodes field (ns.map Node.alone)).toOption = (readNodes field ns).toOption := by
  induction ns generalizing field with
  | nil => rfl
  | cons n ns ih =>
    unfold readNodes
    simp only [List.map_cons, Node.isString_alone, Node.kind_alone, Node.unescaped_alone]
    split
    · cases field with
      | none => exact ih _
      | some name => rfl
    · cases field with
      | none => rfl
      | some name =>
        dsimp only
        split
        · simp only [toOption_bind, ih]
        · rfl

theorem GroupClause.readsAlone : ReadsAlone read := by
  intro g g' h
  rw [read, h, dropBy_alone, readNodes_alone, read]

theorem LimitClause.readNodes_alone (ns : List Node) :
    (readNodes (ns.map Node.alone)).toOption = (readNodes ns).toOption := by
  induction ns with
  | nil => rfl
  | cons n ns ih =>
    rw [List.map_cons, readNodes, readNodes, Node.isString_alone, Node.kind_alone,
      Node.unescaped_alone]
    split
    · cases number? n.unescaped with
      | some limit => simp only [toOption_bind, ih]
      | none => rfl
    · split
      · exact ih
      · rfl

theorem LimitClause.readsAlone : ReadsAlone read := by
  intro g g' h
  rw [read, h, readNodes_alone, read]

namespace Scalar

private theorem hasGap_alone (empty : Bool) (ns : List Node) :
    hasGap empty (ns.map Node.alone) = hasGap empty ns := by
  induction ns generalizing empty with
  | nil => rfl
  | cons n ns ih => rw [List.map_cons, hasGap, hasGap, Node.kind_alone, ih, ih]

private theorem readOperator_alone (l : Level) (chain : Chain) (n : Node) :
    readOperator l chain n.alone = readOperator l chain n := by
  rw [readOperator, readOperator, Node.kind_alone, Node.text_alone]

private theorem readOperand_alone (evals : Evals) (l : Level) (t : Token) :
    readOperand evals l t.alone = readOperand evals l t := by
  simp only [readOperand, Token.kind_alone, Token.slice_alone, Token.unescaped_alone]

mutual

private theorem readNode_alone (evals : Evals) (l : Level) :
    (n : Node) → readNode evals l n.alone = readNode evals l n
  | .token t => by
    have hchain (chain : Chain) := readOperator_alone l chain (.token t)
    rw [Node.alone] at hchain ⊢
    unfold readNode
    simp only [hchain, readOperand_alone]
  | .group kind source span children => by
    have hchain (chain : Chain) := readOperator_alone l chain (.group kind source span children)
    rw [Node.alone_group] at hchain ⊢
    unfold readNode
    simp only [hchain, Text.slice_whole, List.isEmpty_map, hasGap_alone,
      readNodes_alone evals _ children]
    cases kind with
    | function name opening closing => simp only [GroupKind.alone, Token.slice_alone]
    | _ => simp only [GroupKind.alone]

theorem readNodes_alone (evals : Evals) (l : Level) :
    (ns : List Node) → readNodes evals l (ns.map Node.alone) = readNodes evals l ns
  | [] => rfl
  | n :: ns => by
    rw [List.map_cons, readNodes, readNodes, readNode_alone evals l n]
    exact bind_congr fun l' => readNodes_alone evals l' ns

end

/-- An expression is read by what its nodes show. -/
theorem run_alone (index : FieldIndex) (evals : Evals) (ns : List Node) :
    run index evals (ns.map Node.alone) = run index evals ns := by
  rw [run, run, read, read, readNodes_alone]

end Scalar

namespace Visual

private theorem splitWhen_map {α : Type} {p : α → Bool} {f : α → α} (h : ∀ a, p (f a) = p a)
    (as : List α) : splitWhen p (as.map f) = (splitWhen p as).map (List.map f) := by
  induction as with
  | nil => rfl
  | cons a as ih =>
    rw [List.map_cons, splitWhen, splitWhen, h, ih]
    split
    · rfl
    · cases splitWhen p as with
      | nil => rfl
      | cons part parts => rfl

private theorem splitCommas_alone (ns : List Node) :
    splitCommas (ns.map Node.alone) = (splitCommas ns).map (List.map Node.alone) :=
  splitWhen_map (fun n => congrArg (· == TokenKind.comma) n.kind_alone) ns

private theorem readParam_alone (table : Table) (place place' : Place) (params : SortedMap)
    (ns : List Node) :
    (readParam table place' params (ns.map Node.alone)).toOption =
      (readParam table place params ns).toOption := by
  cases ns with
  | nil => rfl
  | cons key ns =>
    cases ns with
    | nil => rfl
    | cons equals ns =>
      cases ns with
      | nil => rfl
      | cons column rest =>
        cases rest with
        | cons extra rest => rfl
        | nil =>
          simp only [readParam, List.map_cons, List.map_nil, Node.isString_alone, Node.kind_alone,
            Node.unescaped_alone]
          split
          · rfl
          · split
            · rfl
            · split
              · rfl
              · cases table.columns.find? fun c =>
                    c.name == column.unescaped || c.id == column.unescaped with
                | some found => rfl
                | none => rfl

private theorem foldlM_readParam_alone (table : Table) (place place' : Place) (params : SortedMap)
    (parts : List (List Node)) :
    ((parts.map (List.map Node.alone)).foldlM (readParam table place') params).toOption =
      (parts.foldlM (readParam table place) params).toOption := by
  induction parts generalizing params with
  | nil => rfl
  | cons part parts ih =>
    rw [List.map_cons, List.foldlM_cons, List.foldlM_cons, toOption_bind, toOption_bind,
      readParam_alone table place place']
    exact Option.bind_congr fun params _ => ih params

private theorem readParams_alone (table : Table) (g : Group) :
    (readParams table g.alone).toOption = (readParams table g).toOption := by
  simp only [readParams, Group.alone, List.isEmpty_map, splitCommas_alone]
  split
  · rfl
  · exact foldlM_readParam_alone table _ _ _ _

theorem readsAlone (table : Table) : ReadsAlone (read · table) := by
  rintro ⟨kind, source, span, children⟩ ⟨kind', source', span', _⟩ rfl
  cases children with
  | nil => rfl
  | cons node rest =>
    cases rest with
    | cons extra rest => rfl
    | nil =>
      simp only [read, List.map_cons, List.map_nil, Node.function?_alone, Node.isString_alone,
        Node.unescaped_alone]
      cases node.function? with
      | some g =>
        simp only [Option.map_some, toOption_bind, readParams_alone, Group.functionName?_alone]
      | none =>
        simp only [Option.map_none]
        split
        · rfl
        · rfl

end Visual

def Selection.alone (s : Selection) : Selection :=
  match s.chosen with
  | .field n => ⟨.field n.alone, s.name⟩
  | .expression _ => s

namespace SelectClause

def faultless? (r : List Selection × Option SyntaxError) : Option (List Selection) :=
  match r.2 with
  | none => some r.1
  | some _ => none

private theorem faultless?_cons (s : Selection) (r : List Selection × Option SyntaxError) :
    faultless? (s :: r.1, r.2) = (faultless? r).map (s :: ·) := by
  obtain ⟨rest, fault⟩ := r
  cases fault with
  | none => rfl
  | some e => rfl

def Progress.alone : Progress → Progress
  | .nothing => .nothing
  | .chosen s => .chosen s.alone
  | .naming s => .naming s.alone
  | .named s => .named s.alone

private theorem Progress.finish?_alone (p : Progress) :
    p.alone.finish? = p.finish?.map Selection.alone := by
  cases p with
  | _ => rfl

private theorem readField_alone (p : Progress) (n : Node) :
    (readField n.alone p.alone).toOption = (readField n p).toOption.map Progress.alone := by
  cases p with
  | nothing =>
    simp only [Progress.alone, readField, Node.unescaped_alone]
    rfl
  | chosen s =>
    obtain ⟨chosen, name⟩ := s
    cases chosen with
    | field n => rfl
    | expression e => rfl
  | naming s =>
    obtain ⟨chosen, name⟩ := s
    simp only [Progress.alone, readField, Node.unescaped_alone]
    cases chosen with
    | field n => rfl
    | expression e => rfl
  | named s => rfl

section
variable {scalar scalar' : Node → Except SyntaxError Expr}
  (hscalar : ∀ n, (scalar' n.alone).toOption = (scalar n).toOption)
include hscalar

private theorem readNode_alone (p : Progress) (n : Node) :
    (readNode scalar' p.alone n.alone).toOption =
      (readNode scalar p n).toOption.map Progress.alone := by
  unfold readNode
  rw [Node.kind_alone]
  split
  · cases p with
    | nothing =>
      simp only [Progress.alone, toOption_bind, hscalar, Node.text_alone, Option.map_bind]
      rfl
    | _ => rfl
  · split
    · exact readField_alone p n
    · split
      · cases p with
        | _ => rfl
      · rfl

/-- The selections of a clause are read by what its nodes show. -/
theorem readNodes_alone (p : Progress) (ns : List Node) :
    faultless? (readNodes scalar' p.alone (ns.map Node.alone)) =
      (faultless? (readNodes scalar p ns)).map (List.map Selection.alone) := by
  induction ns generalizing p with
  | nil =>
    rw [List.map_nil, readNodes, readNodes, Progress.finish?_alone]
    cases p.finish? with
    | none => rfl
    | some s => rfl
  | cons n ns ih =>
    rw [List.map_cons, readNodes, readNodes, Node.kind_alone, Progress.finish?_alone]
    split
    · cases p.finish? with
      | none => rfl
      | some s =>
        have hrest := ih .nothing
        simp only [Progress.alone] at hrest
        refine (faultless?_cons s.alone _).trans ?_
        rw [hrest, faultless?_cons s, Option.map_map, Option.map_map]
        rfl
    · have hnode := readNode_alone hscalar p n
      cases hread : readNode scalar p n with
      | error e =>
        rw [hread] at hnode
        cases hread' : readNode scalar' p.alone n.alone with
        | error e' => rfl
        | ok p' =>
          rw [hread'] at hnode
          cases hnode
      | ok p' =>
        rw [hread] at hnode
        rw [eq_ok_of_toOption hnode]
        exact ih p'

end

end SelectClause

end PipeQuery
