import PipeQuery.Proofs.Filter.Alone

/-!
What a query means hangs on what its nodes show. Queries whose clauses hold nodes that show the same
have one request, wherever the nodes stand and in whichever form the clauses are.
-/
namespace PipeQuery

/-- The readers of expressions, dates and visualisations look at what nodes show, not at where they
stand. -/
structure Services.SeeNodes (s : Services) : Prop where
  readScalar : ∀ evals ns, s.readScalar evals (ns.map Node.alone) = s.readScalar evals ns
  readDate : s.readDate = DateExpression.read
  readVisual : ∀ table, ReadsAlone (s.readVisual · table)

theorem Services.seeNodes_ofCatalog (c : Catalog) : (ofCatalog c).SeeNodes where
  readScalar evals ns := congrArg Prod.fst (Scalar.run_alone {} evals ns)
  readDate := rfl
  readVisual table := (Visual.readsAlone table).bind fun _ => .pure _

namespace Draft

section
variable {ctx : Context} (d : Draft)

private theorem toOption_addField (place place' : Place) (id field name : String)
    (visible special : Bool) :
    (d.addField ctx place' id field name visible special).toOption =
      (d.addField ctx place id field name visible special).toOption :=
  toOption_eq_of_imp (fun _ => addField_place) fun _ => addField_place

private theorem toOption_addFields (place place' : Place) (counts : ColumnId.Counts)
    (fields : List String) :
    (addFields ctx place' d counts fields).toOption =
      (addFields ctx place d counts fields).toOption := by
  induction fields generalizing d counts with
  | nil => rfl
  | cons field fields ih =>
    rw [addFields, addFields]
    simp only [toOption_bind, toOption_addField d place place', ih]

private theorem addSelection_alone (counts : ColumnId.Counts) (s : Selection) :
    (d.addSelection ctx counts s.alone).toOption = (d.addSelection ctx counts s).toOption := by
  obtain ⟨chosen, name⟩ := s
  cases chosen with
  | expression e => rfl
  | field n =>
    have hwildcard : isWildcard n.alone name = isWildcard n name := by
      rw [isWildcard, isWildcard, Node.kind_alone]
    have hexpand : d.expand ctx n.alone = d.expand ctx n := by
      rw [expand, expand, Node.unescaped_alone]
    simp only [addSelection, Selection.alone, hwildcard, hexpand, Node.unescaped_alone]
    split
    · exact toOption_addFields d _ _ counts _
    · simp only [toOption_bind, toOption_addField d n.place n.alone.place]

private theorem addSelections_alone (counts : ColumnId.Counts) (ss : List Selection) :
    (addSelections ctx d counts (ss.map Selection.alone)).toOption =
      (addSelections ctx d counts ss).toOption := by
  induction ss generalizing d counts with
  | nil => rfl
  | cons s ss ih =>
    rw [List.map_cons, addSelections, addSelections, toOption_bind, toOption_bind,
      addSelection_alone]
    exact Option.bind_congr fun r _ => ih r.1 r.2

/-- A `select` clause is read if it has no fault and its columns can be added. -/
theorem toOption_readSelect (g : Group) :
    (d.readSelect ctx g).toOption =
      (SelectClause.faultless? (SelectClause.read (fun n => d.readScalar ctx g [n]) g)).bind
        fun ss => (addSelections ctx d {} ss).toOption := by
  rw [readSelect]
  obtain ⟨ss, fault⟩ := SelectClause.read (fun n => d.readScalar ctx g [n]) g
  simp only [toOption_bind]
  cases fault with
  | none => exact Option.bind_fun_some _
  | some e => exact Option.bind_fun_none _

end

section
variable {ctx : Context} (h : ctx.services.SeeNodes)
include h

private theorem readScalar_alone (d : Draft) (g g' : Group) (ns : List Node) :
    (d.readScalar ctx g' (ns.map Node.alone)).toOption = (d.readScalar ctx g ns).toOption := by
  rw [readScalar, readScalar, h.readScalar]
  cases ctx.services.readScalar d.evals ns with
  | ok e => rfl
  | error e => rfl

private theorem readsAlone_readEval (d : Draft) : ReadsAlone (d.readEval ctx) := by
  intro g g' hchildren
  simp only [readEval, toOption_bind, EvalClause.read_alone hchildren, Option.bind_map,
    Function.comp_def, readScalar_alone h d g g']

private theorem readsAlone_readSelect (d : Draft) : ReadsAlone (d.readSelect ctx) := by
  intro g g' hchildren
  have hscalar (n : Node) : (d.readScalar ctx g' [n.alone]).toOption =
      (d.readScalar ctx g [n]).toOption := readScalar_alone h d g g' [n]
  have hread : SelectClause.faultless? (SelectClause.read (fun n => d.readScalar ctx g' [n]) g') =
      (SelectClause.faultless? (SelectClause.read (fun n => d.readScalar ctx g [n]) g)).map
        (List.map Selection.alone) := by
    rw [SelectClause.read, hchildren]
    exact SelectClause.readNodes_alone hscalar .nothing g.children
  rw [toOption_readSelect, toOption_readSelect, hread, Option.bind_map]
  exact Option.bind_congr fun ss _ => addSelections_alone d {} ss

/-- A clause without a condition is read by what its nodes show. -/
theorem readsAlone_readPlain (d : Draft) (clause : Clause) :
    ReadsAlone (d.readPlain ctx clause) := by
  cases clause with
  | source => exact (SourceClause.readsAlone ctx.services).bind fun _ => .pure _
  | eval => exact readsAlone_readEval h d
  | window => exact WindowClause.readsAlone.bind fun _ => .pure _
  | sort => exact SortClause.readsAlone.bind fun _ => .pure _
  | group => exact GroupClause.readsAlone.bind fun _ => .pure _
  | select => exact readsAlone_readSelect h d
  | limit => exact LimitClause.readsAlone.bind fun _ => .pure _
  | present => exact (h.readVisual d.table).bind fun _ => .pure _
  | restrict | filter | having => exact .pure d

end

end Draft

structure Extension.Resembles (e e' : Extension) : Prop where
  op : e'.op = e.op
  command : e'.command.alone = e.command.alone
  children : e.group.children.map Node.alone = e'.group.children.map Node.alone

namespace ConditionClause

open FilterReader (Reading outcome outcome_bind outcome_pure outcome_read_alone)

private theorem connectives_resembling {e e' : Extension} (h : e.Resembles e') :
    (connectives e').map Part.alone = (connectives e).map Part.alone := by
  have hplace : e'.command.place.alone = e.command.place.alone := by
    rw [← Token.place_alone, ← Token.place_alone, h.command]
  rw [connectives, connectives, h.op]
  cases e.op with
  | _ => simp only [List.map_cons, List.map_nil, Part.alone, hplace]

private theorem bind_eq_of_map_eq {α β γ : Type} {o o' : Option α} {view : α → γ}
    {k k' : α → Option β} (h : o'.map view = o.map view)
    (hk : ∀ a a', view a' = view a → k' a' = k a) : o'.bind k' = o.bind k := by
  cases o with
  | none =>
    rw [Option.map_eq_none_iff.mp h]
    rfl
  | some a =>
    obtain ⟨a', rfl, ha⟩ := Option.map_eq_some_iff.mp h
    exact hk a a' ha

def partsAlone (r : List Part × List String) : List Part × List String :=
  (r.1.map Part.alone, r.2)

private theorem outcome_read {ctx : Context} {note : Bool} (g : Group) (es : List Extension)
    (names : List String) :
    outcome (read ctx note g es) names =
      (outcome (FilterReader.read ctx note g.children) names).bind fun condition =>
        (outcome (readExtensions ctx note es) condition.2).bind fun r =>
          (Part.combine (.item condition.1.toItem :: r.1)).toOption.map (·, r.2) := by
  simp only [read, outcome_bind]
  refine Option.bind_congr fun condition _ => Option.bind_congr fun r _ => ?_
  cases Part.combine (.item condition.1.toItem :: r.1) with
  | ok op => rfl
  | error e => rfl

section
variable {ctx : Context} {note : Bool} (hdate : ctx.services.readDate = DateExpression.read)
include hdate

private theorem outcome_read_congr {ns ms : List Node} (h : ns.map Node.alone = ms.map Node.alone)
    (names : List String) :
    outcome (FilterReader.read ctx note ns) names =
      outcome (FilterReader.read ctx note ms) names := by
  rw [← outcome_read_alone hdate, h, outcome_read_alone hdate]

private theorem readExtension_resembling {e e' : Extension} (h : e.Resembles e')
    (names : List String) :
    (outcome (readExtension ctx note e') names).map partsAlone =
      (outcome (readExtension ctx note e) names).map partsAlone := by
  rw [readExtension, readExtension, outcome_bind, outcome_bind, outcome_read_congr hdate h.children,
    Option.map_bind, Option.map_bind]
  refine Option.bind_congr fun r _ => ?_
  simp only [Function.comp_apply]
  split
  · rfl
  · simp only [outcome_pure, Option.map_some, partsAlone, List.map_append, connectives_resembling h]

private theorem readExtensions_resembling {es es' : List Extension}
    (h : List.Forall₂ Extension.Resembles es es') (names : List String) :
    (outcome (readExtensions ctx note es') names).map partsAlone =
      (outcome (readExtensions ctx note es) names).map partsAlone := by
  induction h generalizing names with
  | nil => rfl
  | cons he _ ih =>
    simp only [readExtensions, outcome_bind, Option.map_bind]
    refine bind_eq_of_map_eq (readExtension_resembling hdate he names) fun r r' hr => ?_
    obtain ⟨hparts, hnames⟩ := Prod.ext_iff.mp hr
    simp only [partsAlone] at hparts hnames
    simp only [Function.comp_apply, hnames, Option.map_bind]
    refine bind_eq_of_map_eq (ih r.2) fun s s' hs => ?_
    obtain ⟨hparts', hnames'⟩ := Prod.ext_iff.mp hs
    simp only [partsAlone] at hparts' hnames'
    show some (partsAlone (r'.1 ++ s'.1, s'.2)) = some (partsAlone (r.1 ++ s.1, s.2))
    simp only [partsAlone, List.map_append, hparts, hparts', hnames']

/-- The condition of a clause, with its extensions, is read by what the nodes show. -/
theorem outcome_read_resembling {g g' : Group} {es es' : List Extension}
    (hchildren : g.children.map Node.alone = g'.children.map Node.alone)
    (hes : List.Forall₂ Extension.Resembles es es') (names : List String) :
    outcome (read ctx note g' es') names = outcome (read ctx note g es) names := by
  rw [outcome_read, outcome_read, ← outcome_read_congr hdate hchildren]
  refine Option.bind_congr fun condition _ => ?_
  refine bind_eq_of_map_eq (readExtensions_resembling hdate hes condition.2) fun r r' hr => ?_
  obtain ⟨hparts, hnames⟩ := Prod.ext_iff.mp hr
  simp only [partsAlone] at hparts hnames
  have hall : (Part.item condition.1.toItem :: r'.1).map Part.alone =
      (Part.item condition.1.toItem :: r.1).map Part.alone := by
    rw [List.map_cons, List.map_cons, hparts]
  rw [hnames, ← Part.combine_alone, hall, Part.combine_alone]

end

end ConditionClause

namespace Draft

private theorem readCondition_eq_ok_iff {ctx : Context} {note : Bool} {g : Group}
    {es : List Extension} {op : Operator} {fields : List HavingField} :
    readCondition ctx note g es = .ok (op, fields) ↔
      ∃ names, FilterReader.outcome (ConditionClause.read ctx note g es) [] = some (op, names) ∧
        names.map (⟨·, g.place⟩) = fields := by
  rw [readCondition, FilterReader.outcome]
  cases hrun : (ConditionClause.read ctx note g es).run [] with
  | mk r names =>
    have hrun' : (ConditionClause.read ctx note g es).run.run [] = (r, names) := hrun
    rw [hrun']
    cases r with
    | error e => simp [Except.toOption]
    | ok op' => simp [Except.toOption]

section
variable {ctx : Context} (h : ctx.services.SeeNodes)
include h

private theorem readCondition_resembling {note : Bool} {g g' : Group} {es es' : List Extension}
    {op : Operator} {fields : List HavingField}
    (hchildren : g.children.map Node.alone = g'.children.map Node.alone)
    (hes : List.Forall₂ Extension.Resembles es es')
    (hread : readCondition ctx note g es = .ok (op, fields)) :
    ∃ fields', readCondition ctx note g' es' = .ok (op, fields') ∧
      fields.map (·.name) = fields'.map (·.name) := by
  obtain ⟨names, hnames, rfl⟩ := readCondition_eq_ok_iff.mp hread
  rw [← ConditionClause.outcome_read_resembling h.readDate hchildren hes] at hnames
  refine ⟨_, readCondition_eq_ok_iff.mpr ⟨names, hnames, rfl⟩, ?_⟩
  simp only [List.map_map, Function.comp_def]

/-- Clauses that hold nodes which show the same are read alike. -/
theorem alike_resembling {c c' : ClauseGroup} {es es' : List Extension} {d d₁ : Draft}
    (hclause : c'.clause = c.clause)
    (hchildren : c.group.children.map Node.alone = c'.group.children.map Node.alone)
    (hes : List.Forall₂ Extension.Resembles es es') (hread : d.readClause ctx c es = .ok d₁) :
    ∃ d₁', d.readClause ctx c' es' = .ok d₁' ∧ Alike d₁ d₁' := by
  obtain ⟨clause, place, g⟩ := c
  obtain ⟨clause', place', g'⟩ := c'
  cases hclause
  cases clause with
  | restrict | filter =>
    obtain ⟨⟨op, fields⟩, hop, hd⟩ := bind_eq_ok.mp hread
    cases hd
    obtain ⟨fields', hop', -⟩ := readCondition_resembling h hchildren hes hop
    exact ⟨_, bind_eq_ok.mpr ⟨(op, fields'), hop', rfl⟩, .refl _⟩
  | having =>
    obtain ⟨⟨op, fields⟩, hop, hd⟩ := bind_eq_ok.mp hread
    cases hd
    obtain ⟨fields', hop', hnames⟩ := readCondition_resembling h hchildren hes hop
    refine ⟨_, bind_eq_ok.mpr ⟨(op, fields'), hop', rfl⟩, d.consumed, d.having ++ fields', .refl _,
      ?_, rfl⟩
    simp only [List.map_append, hnames]
  | _ =>
    obtain ⟨d₂, hplain, hrest⟩ := bind_eq_ok.mp hread
    have hplain' := (readsAlone_readPlain h d _).congr hchildren (Result.ofExcept_eq_ok.mp hplain)
    cases hes with
    | nil => exact ⟨d₁, bind_eq_ok.mpr ⟨d₂, Result.ofExcept_eq_ok.mpr hplain', hrest⟩, .refl _⟩
    | cons _ _ => cases hrest

end

end Draft

/-- The nodes start the same clause, each in one of its forms, or are pipes with one connective, and
they hold nodes that show the same. -/
inductive Node.Resembles : Node → Node → Prop
  | clause {g g' : Group} {c : Clause} (hg : g.Starts c) (hg' : g'.Starts c)
      (hchildren : g.children.map Node.alone = g'.children.map Node.alone) :
      Resembles g.toNode g'.toNode
  | pipe {n n' : Node} {e e' : Extension} (he : n.extension? = some e)
      (he' : n'.extension? = some e') (hresembles : e.Resembles e') : Resembles n n'

section
variable {ctx : Context} (h : ctx.services.SeeNodes)
include h

/-- Nodes that resemble each other fall into entries that are read alike. -/
theorem attachExtensions_resembling {ns ns' : List Node}
    (hns : List.Forall₂ Node.Resembles ns ns') :
    List.Forall₂ Extension.Resembles (attachExtensions ns).1 (attachExtensions ns').1 ∧
      List.Forall₂ (Draft.ReadAlike ctx) (attachExtensions ns).2 (attachExtensions ns').2 := by
  induction hns with
  | nil => exact ⟨.nil, .nil⟩
  | cons hn _ ih =>
    obtain ⟨hleading, hentries⟩ := ih
    cases hn with
    | clause hg hg' hchildren =>
      rw [attachExtensions_cons (Node.extension?_of_starts hg),
        attachExtensions_cons (Node.extension?_of_starts hg')]
      refine ⟨.nil, .cons ?_ hentries⟩
      intro k hk
      obtain ⟨place, hgroup⟩ := Node.exists_clauseGroup hg
      obtain ⟨place', hgroup'⟩ := Node.exists_clauseGroup hg'
      cases hgroup.symm.trans hk
      refine ⟨_, hgroup', rfl, fun d d₁ hread => ?_⟩
      refine Draft.alike_resembling h ?_ hchildren hleading hread
      rfl
    | pipe he he' hresembles =>
      simp only [attachExtensions, he, he']
      exact ⟨.cons hresembles hleading, hentries⟩

/-- Queries whose nodes resemble each other have one request. -/
theorem compileRoot_resembling {root root' : Group} {request : SearchRequest}
    (hnodes : List.Forall₂ Node.Resembles root.children root'.children)
    (hroot : compileRoot ctx root = .ok request) : compileRoot ctx root' = .ok request := by
  obtain ⟨hleading, hentries⟩ := attachExtensions_resembling h hnodes
  obtain ⟨d, hd, hfinish⟩ := bind_eq_ok.mp hroot
  obtain ⟨hnone, hread⟩ := Draft.ofRoot_eq_ok_iff.mp hd
  rw [hnone] at hleading
  obtain ⟨d', hread', hd'⟩ := Draft.alike_readEntries hentries (.refl {}) hread
  have hnone' := List.forall₂_nil_left_iff.mp hleading
  refine bind_eq_ok.mpr ⟨d', Draft.ofRoot_eq_ok_iff.mpr ⟨hnone', hread'⟩, ?_⟩
  exact Result.ofExcept_eq_ok.mpr (Draft.alike_finish hd' (Result.ofExcept_eq_ok.mp hfinish))

end

end PipeQuery
