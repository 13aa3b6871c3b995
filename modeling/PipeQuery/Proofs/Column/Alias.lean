import PipeQuery.Proofs.Clause.Select
import PipeQuery.Proofs.Column.Readable
import PipeQuery.Proofs.Draft.Alone
import PipeQuery.Proofs.Draft.Visual
import PipeQuery.Proofs.Scalar.Grammar

/-!
Names for selected columns. A name after a field of a `select` clause changes nothing but names and
identifiers of columns, as long as the field stands for the same fields under it. It may not: a name
decides with its field whether the field is a wildcard.
-/
namespace PipeQuery

namespace SelectClause

/-- The field is an entry of its own: nothing but commas stands next to it. -/
structure IsEntry (before : List Node) (entry : Node) (after : List Node) : Prop where
  field : isField entry.kind = true
  before : ∀ c ∈ before.getLast?, c.kind = .comma
  after : ∀ c ∈ after.head?, c.kind = .comma

/-- The second clause is the first one with `as` and a name after one of its entries. -/
inductive Names (clause : Group) (entry name : Node) : Group → Prop
  | mk {before after : List Node} {word : Node} (children : clause.children = before ++ entry :: after)
    (isEntry : IsEntry before entry after) (as : word.kind = .asWord)
    (kind : isField name.kind = true) :
    Names clause entry name { clause with children := before ++ entry :: word :: name :: after }

theorem Names.starts {clause clause' : Group} {entry name : Node} {c : Clause}
    (h : Names clause entry name clause') (hclause : clause.Starts c) : clause'.Starts c := by
  cases h
  cases hclause with
  | keyword t hkind hclause => exact .keyword t hkind hclause
  | command bar word command hkind hname hclause =>
    exact .command bar word command hkind hname hclause

section
variable {scalar : Node → Except SyntaxError Expr}

/-- What follows an entry up to its comma is read on its own. -/
theorem readNodes_after {p : Progress} {s : Selection} {after : List Node} (hp : p.finish? = some s)
    (hafter : ∀ c ∈ after.head?, c.kind = .comma) :
    readNodes scalar p after =
      (s :: (readNodes scalar .nothing after.tail).1,
        (readNodes scalar .nothing after.tail).2) := by
  cases after with
  | nil =>
    rw [readNodes, hp]
    rfl
  | cons c rest =>
    rw [readNodes, if_pos (hafter c rfl), hp]
    rfl

/-- What stands before a comma is read as the same selections, whatever follows. -/
theorem readNodes_before {p : Progress} {ns rest : List Node} {c : Node} {ss : List Selection}
    (hc : c.kind = .comma) (h : readNodes scalar p (ns ++ c :: rest) = (ss, none)) :
    ∃ front back, ss = front ++ back ∧ readNodes scalar .nothing rest = (back, none) ∧
      ∀ rest' back', readNodes scalar .nothing rest' = (back', none) →
        readNodes scalar p (ns ++ c :: rest') = (front ++ back', none) := by
  induction ns generalizing p ss with
  | nil =>
    rw [List.nil_append, readNodes, if_pos hc] at h
    cases hs : p.finish? with
    | none =>
      rw [hs] at h
      cases h
    | some s =>
      simp only [hs] at h
      obtain ⟨rfl, hfault⟩ := Prod.mk.inj h
      refine ⟨[s], _, rfl, Prod.ext rfl hfault, fun rest' back' hrest => ?_⟩
      rw [List.nil_append, readNodes, if_pos hc]
      simp only [hs, hrest]
      rfl
  | cons n ns ih =>
    rw [List.cons_append, readNodes] at h
    split at h
    next hcomma =>
      cases hs : p.finish? with
      | none =>
        rw [hs] at h
        cases h
      | some s =>
        simp only [hs] at h
        obtain ⟨rfl, hfault⟩ := Prod.mk.inj h
        obtain ⟨front, back, hss, hrest, hall⟩ := ih (Prod.ext rfl hfault)
        refine ⟨s :: front, back, congrArg (s :: ·) hss, hrest, fun rest' back' hrest' => ?_⟩
        rw [List.cons_append, readNodes, if_pos hcomma]
        simp only [hs, hall rest' back' hrest']
        rfl
    next hcomma =>
      cases hn : readNode scalar p n with
      | error e =>
        rw [hn] at h
        cases h
      | ok p' =>
        rw [hn] at h
        obtain ⟨front, back, hss, hrest, hall⟩ := ih h
        refine ⟨front, back, hss, hrest, fun rest' back' hrest' => ?_⟩
        rw [List.cons_append, readNodes, if_neg hcomma, hn]
        exact hall rest' back' hrest'

/-- A name after an entry changes the name of its selection. -/
theorem readNodes_named {before after : List Node} {entry word name : Node} {sel : List Selection}
    (hentry : IsEntry before entry after) (hword : word.kind = .asWord)
    (hname : isField name.kind = true)
    (h : readNodes scalar .nothing (before ++ entry :: after) = (sel, none)) :
    ∃ ss ss', sel = ss ++ ⟨.field entry, entry.unescaped⟩ :: ss' ∧
      readNodes scalar .nothing (before ++ entry :: word :: name :: after) =
        (ss ++ ⟨.field entry, name.unescaped⟩ :: ss', none) := by
  have hplain : readNodes scalar .nothing (entry :: after) = _ :=
    (readNodes_chosen (.field hentry.field) after).trans (readNodes_after rfl hentry.after)
  have hnamed : readNodes scalar .nothing (entry :: word :: name :: after) = _ :=
    ((readNodes_chosen (.field hentry.field) _).trans
      ((readNodes_as hword _ _).trans (readNodes_name hname _ after))).trans
      (readNodes_after rfl hentry.after)
  rcases List.eq_nil_or_concat before with rfl | ⟨front, c, rfl⟩
  · rw [List.nil_append, hplain] at h
    obtain ⟨rfl, hfault⟩ := Prod.mk.inj h
    refine ⟨[], _, rfl, ?_⟩
    rw [List.nil_append, hnamed, hfault]
    rfl
  · have hc : c.kind = .comma := hentry.before c (by simp)
    rw [List.concat_eq_append, List.append_assoc, List.singleton_append] at h ⊢
    obtain ⟨ss, back, rfl, hback, hall⟩ := readNodes_before hc h
    rw [hplain] at hback
    obtain ⟨rfl, hfault⟩ := Prod.mk.inj hback
    exact ⟨ss, _, rfl, hall _ _ (hnamed.trans (Prod.ext rfl hfault))⟩

end

end SelectClause

/-- A name on its own is an expression. -/
theorem Scalar.exists_run_ofName (evals : Evals) (name : String) :
    ∃ e, (run {} evals [.token (.ofName name)]).1 = .ok e := by
  have hoperand : (Token.ofName name).kind.isOperand := by
    rw [Token.ofName]
    cases isParamText name with
    | true => rfl
    | false => rfl
  obtain ⟨e, he⟩ := exists_written_token hoperand
  exact ⟨_, run_of_written (Written.tree_chain (.first (.unsigned he))) {}⟩

namespace Draft

section
variable {ctx : Context} {catalog : Catalog} (hctx : ctx.services = .ofCatalog catalog)
include hctx

private theorem exists_fieldExpr (d : Draft) (place : Place) (field : String) :
    ∃ e, d.fieldExpr ctx place field = .ok e := by
  rw [fieldExpr, hctx]
  cases d.evals.get? field with
  | some e => exact ⟨e, rfl⟩
  | none =>
    obtain ⟨e, he⟩ := Scalar.exists_run_ofName d.evals field
    refine ⟨e, ?_⟩
    simp only [Services.ofCatalog, he]

private theorem exists_addField (d : Draft) (place : Place) (id field name : String)
    (visible special : Bool) :
    ∃ d', d.addField ctx place id field name visible special = .ok d' := by
  obtain ⟨e, he⟩ := exists_fieldExpr hctx d place field
  exact ⟨_, bind_eq_ok.mpr ⟨e, he, rfl⟩⟩

private theorem exists_addFields (place : Place) (fields : List String) (d : Draft)
    (counts : ColumnId.Counts) : ∃ r, addFields ctx place d counts fields = .ok r := by
  induction fields generalizing d counts with
  | nil => exact ⟨_, rfl⟩
  | cons field fields ih =>
    obtain ⟨d₁, hd₁⟩ := exists_addField hctx d place (ColumnId.next counts field).1 field field true
      false
    obtain ⟨r, hr⟩ := ih d₁ (ColumnId.next counts field).2
    exact ⟨r, bind_eq_ok.mpr ⟨d₁, hd₁, hr⟩⟩

private theorem exists_addSelection (d : Draft) (counts : ColumnId.Counts) (s : Selection) :
    ∃ r, d.addSelection ctx counts s = .ok r := by
  rw [addSelection]
  split
  next n _ =>
    split
    · exact exists_addFields hctx n.place _ d counts
    · obtain ⟨d₁, hd₁⟩ := exists_addField hctx d n.place (ColumnId.next counts s.name).1 n.unescaped
        s.name true false
      exact ⟨_, bind_eq_ok.mpr ⟨d₁, hd₁, rfl⟩⟩
  next e _ => exact ⟨_, rfl⟩

private theorem exists_addSelections (ss : List Selection) (d : Draft) (counts : ColumnId.Counts) :
    ∃ d', addSelections ctx d counts ss = .ok d' := by
  induction ss generalizing d counts with
  | nil => exact ⟨d, rfl⟩
  | cons s ss ih =>
    obtain ⟨r, hr⟩ := exists_addSelection hctx d counts s
    obtain ⟨d', hd'⟩ := ih r.1 r.2
    exact ⟨d', bind_eq_ok.mpr ⟨r, hr, hd'⟩⟩

private theorem exists_addHidden (fields : List HavingField) (d : Draft) :
    ∃ d', addHidden ctx d fields = .ok d' := by
  induction fields generalizing d with
  | nil => exact ⟨d, rfl⟩
  | cons f fields ih =>
    rw [addHidden]
    split
    · exact ih d
    · obtain ⟨d₁, hd₁⟩ := exists_addField hctx d f.place (hiddenId f.name) f.name f.name false true
      obtain ⟨d', hd'⟩ := ih d₁
      exact ⟨d', bind_eq_ok.mpr ⟨d₁, hd₁, hd'⟩⟩

end

end Draft

def Column.Renamed (c c' : Column) : Prop := c' = { c with id := c'.id, name := c'.name }

namespace Draft

theorem OnlyColumns.symm {d d' : Draft} (h : OnlyColumns d d') : OnlyColumns d' d := by
  obtain ⟨columns, added, rfl⟩ := h
  exact ⟨d.table.columns, d.added, rfl⟩

/-- The second draft has the columns of the first one under other names, and columns for the same
fields. -/
structure Renamed (d d' : Draft) : Prop where
  only : OnlyColumns d d'
  columns : List.Forall₂ Column.Renamed d.table.columns d'.table.columns
  added : ∀ n, n ∈ d'.added ↔ n ∈ d.added

namespace Renamed
variable {ctx : Context} {d d' d₁ : Draft}

theorem contains (h : Renamed d d') (name : String) :
    d'.added.contains name = d.added.contains name := by
  simp only [List.contains_eq_mem, h.added]

theorem noteColumn (h : Renamed d d') (name : String) (c : Column) :
    Renamed ((d.note name).addColumn c) ((d'.note name).addColumn c) := by
  refine ⟨?_, ?_, ?_⟩
  · exact (OnlyColumns.noteColumn d name c).symm.trans (h.only.trans (.noteColumn d' name c))
  · rw [columns_noteColumn, columns_noteColumn]
    exact List.rel_append h.columns (.cons rfl .nil)
  · intro n
    rw [mem_added_noteColumn, mem_added_noteColumn, h.added]

theorem addField (h : Renamed d d') {place : Place} {id field name : String}
    {visible special : Bool} (hd : d.addField ctx place id field name visible special = .ok d₁) :
    ∃ d₁', d'.addField ctx place id field name visible special = .ok d₁' ∧ Renamed d₁ d₁' := by
  obtain ⟨e, he, hd₁⟩ := bind_eq_ok.mp hd
  cases hd₁
  have hnext := h.noteColumn field (d.column id name field e visible special)
  -- Neither the expression nor the column looks at the columns so far.
  obtain ⟨columns, added, rfl⟩ := h.only
  exact ⟨_, bind_eq_ok.mpr ⟨e, he, rfl⟩, hnext⟩

theorem addOrigin (h : Renamed d d') (id field : String) :
    Renamed (d.addOrigin id field) (d'.addOrigin id field) := by
  rw [Draft.addOrigin, Draft.addOrigin, h.contains]
  split
  · exact h
  · exact h.noteColumn id _

theorem addOrigins (h : Renamed d d') : Renamed d.addOrigins d'.addOrigins := by
  have hdepth : d'.depth = d.depth := by
    obtain ⟨columns, added, rfl⟩ := h.only
    rfl
  rw [Draft.addOrigins, Draft.addOrigins, hdepth]
  split
  · exact (h.addOrigin _ _).addOrigin _ _
  · exact h

theorem addHidden (h : Renamed d d') {fields : List HavingField}
    (hd : Draft.addHidden ctx d fields = .ok d₁) :
    ∃ d₁', Draft.addHidden ctx d' fields = .ok d₁' ∧ Renamed d₁ d₁' := by
  induction fields generalizing d d' with
  | nil =>
    cases hd
    exact ⟨d', rfl, h⟩
  | cons f fields ih =>
    rw [Draft.addHidden] at hd ⊢
    rw [h.contains]
    split at hd
    next hadded =>
      rw [if_pos hadded]
      exact ih h hd
    next hadded =>
      rw [if_neg hadded]
      obtain ⟨d₂, hfield, hrest⟩ := bind_eq_ok.mp hd
      obtain ⟨d₂', hfield', hnext⟩ := h.addField hfield
      obtain ⟨d₁', hrest', hlast⟩ := ih hnext hrest
      exact ⟨d₁', bind_eq_ok.mpr ⟨d₂', hfield', hrest'⟩, hlast⟩

end Renamed

section
variable {ctx : Context} {d d' : Draft}

/-- After `select` and without `show`, no clause looks at the columns. -/
theorem onlyColumns_readEntries {e : Draft} {entries : List (Node × List Extension)}
    (hselect : .select ∈ d.consumed)
    (hshow : ∀ g : Group, g.toNode ∈ entries.map (·.1) → ¬ g.Starts .present)
    (h : OnlyColumns d e) (hread : readEntries ctx d entries = .ok d') :
    ∃ e', readEntries ctx e entries = .ok e' ∧ OnlyColumns d' e' := by
  induction entries generalizing d e with
  | nil =>
    cases hread
    exact ⟨e, rfl, h⟩
  | cons entry entries ih =>
    obtain ⟨d₁, hentry, hrest⟩ := bind_eq_ok.mp hread
    obtain ⟨c, d₂, hc, horder, hclause, rfl⟩ := readEntry_eq_ok_iff.mp hentry
    obtain ⟨hnode, hstarts⟩ := Node.clauseGroup_eq_ok hc
    have hlimit : c.clause = .limit := by
      have hvalid := ((Clause.checkOrder_eq_ok_iff _ _ _).mp horder).2 _ hselect
      cases hkind : c.clause with
      | limit => rfl
      | present =>
        rw [hkind] at hstarts
        exact absurd hstarts (hshow c.group (by simp [hnode]))
      | _ =>
        rw [hkind] at hvalid
        exact absurd hvalid (by decide)
    obtain ⟨clause, place, g⟩ := c
    cases hlimit
    obtain ⟨hplain, hnil⟩ := readAlone_eq_ok_iff.mp hclause
    obtain ⟨limits, hlimits, hd₂⟩ := bind_eq_ok.mp hplain
    cases hd₂
    obtain ⟨columns, added, rfl⟩ := h
    have hread' : readClause ctx
        { d with table := { d.table with columns := columns }, added := added } ⟨.limit, place, g⟩
        entry.2 = .ok _ :=
      readAlone_eq_ok_iff.mpr ⟨bind_eq_ok.mpr ⟨limits, hlimits, rfl⟩, hnil⟩
    obtain ⟨e', hback, he'⟩ := ih (List.mem_append_left _ hselect)
      (fun g hg => hshow g (List.mem_cons_of_mem _ hg)) ⟨columns, added, rfl⟩ hrest
    exact ⟨e', bind_eq_ok.mpr ⟨_, readEntry_eq_ok_iff.mpr ⟨_, _, hc, horder, hread', rfl⟩, hback⟩, he'⟩

/-- A draft without a visualisation is completed to a request for its table, with hidden columns. -/
theorem finish_eq_ok {request : SearchRequest} (hvisual : d.visual = none)
    (hd : ∀ c ∈ d.table.columns, c.visible) (h : d.finish ctx = .ok request) :
    ∃ d₁, d.addOrigins.addHidden ctx d.having = .ok d₁ ∧
      d₁.table.columns.filter (·.visible) = d.table.columns ∧
      request.results = [⟨tableId,
        [{ d.table with columns := d₁.table.columns, extractValues := true }], .table⟩] := by
  obtain ⟨columns, hcolumns, hresults⟩ := results_finish hd h
  obtain ⟨d₁, table, hhidden, htable, hsame⟩ := table_finish h
  rw [results, hvisual] at hresults
  have htable' : request.table? = some { d.table with columns := columns, extractValues := true } := by
    rw [SearchRequest.table?, hresults]
    rfl
  cases htable.symm.trans htable'
  have hsame' : columns = d₁.table.columns := hsame
  rw [hsame'] at hcolumns hresults
  exact ⟨d₁, hhidden, hcolumns, hresults⟩

/-- Whatever its columns are, a draft can be completed, and they do not change what is searched. -/
theorem exists_finish {catalog : Catalog} (hctx : ctx.services = .ofCatalog catalog)
    {request : SearchRequest} (honly : OnlyColumns d d') (h : d.finish ctx = .ok request) :
    ∃ request', d'.finish ctx = .ok request' ∧ request'.key = request.key ∧
      request'.query = request.query := by
  obtain ⟨d₂, hhidden₂⟩ := exists_addHidden hctx d'.having d'.addOrigins
  rw [finish] at h ⊢
  split at h
  · cases h
  next source hsource =>
    obtain ⟨d₁, hhidden, hrequest⟩ := bind_eq_ok.mp h
    cases hrequest
    have hboth := ((onlyColumns_addOrigins d).trans (onlyColumns_addHidden hhidden)).symm.trans
      (honly.trans ((onlyColumns_addOrigins d').trans (onlyColumns_addHidden hhidden₂)))
    have hsource' : d'.source = some source := by
      obtain ⟨columns, added, rfl⟩ := honly
      exact hsource
    obtain ⟨columns, added, rfl⟩ := hboth
    rw [hsource']
    exact ⟨_, bind_eq_ok.mpr ⟨_, hhidden₂, rfl⟩, rfl, rfl⟩

/-- Drafts that differ only in their columns are completed to requests that differ only in their
columns. -/
theorem finish_onlyColumns {catalog : Catalog} (hctx : ctx.services = .ofCatalog catalog)
    {request : SearchRequest} (honly : OnlyColumns d d') (hvisual : d.visual = none)
    (hd : ∀ c ∈ d.table.columns, c.visible) (hd' : ∀ c ∈ d'.table.columns, c.visible)
    (h : d.finish ctx = .ok request) :
    ∃ (table : Table) (columns : List Column),
      request.results = [⟨tableId, [table], .table⟩] ∧
      d'.finish ctx = .ok { request with
        results := [⟨tableId, [{ table with columns := columns }], .table⟩] } ∧
      table.columns.filter (·.visible) = d.table.columns ∧
      columns.filter (·.visible) = d'.table.columns ∧
      (Renamed d d' → List.Forall₂ Column.Renamed table.columns columns) := by
  obtain ⟨d₁, hhidden, hcolumns, hresults⟩ := finish_eq_ok hvisual hd h
  obtain ⟨request', hrequest', hkey, hquery⟩ := exists_finish hctx honly h
  have hvisual' : d'.visual = none := by
    obtain ⟨columns, added, rfl⟩ := honly
    exact hvisual
  obtain ⟨d₂, hhidden₂, hcolumns', hresults'⟩ := finish_eq_ok hvisual' hd' hrequest'
  have htable : { d'.table with columns := d₂.table.columns, extractValues := true } =
      { d.table with columns := d₂.table.columns, extractValues := true } := by
    obtain ⟨columns, added, rfl⟩ := honly
    rfl
  rw [htable] at hresults'
  refine ⟨_, d₂.table.columns, hresults, ?_, hcolumns, hcolumns', ?_⟩
  · rw [hrequest', ← hkey, ← hquery, ← hresults']
  · intro hrenamed
    obtain ⟨d₃, hhidden₃, hlast⟩ := hrenamed.addOrigins.addHidden hhidden
    have hhaving : d'.having = d.having := by
      obtain ⟨columns, added, rfl⟩ := honly
      rfl
    rw [hhaving, hhidden₃] at hhidden₂
    cases hhidden₂
    exact hlast.columns

/-- What a column that answers shows apart from its name: its expression, and its place in the order
and in the groups. -/
def face (d : Draft) (a : Asked) : Except SyntaxError String × Option SortKey × Option UInt32 :=
  (a.expr.map Expr.render, d.sorts.get? a.key, d.groups.get? a.key)

/-- Columns that answer are the same but for their names exactly if the same faces are asked for. -/
theorem renamed_iff_faces {as as' : List Asked} {cs cs' : List Column} {shown : Bool}
    (hcs : List.Forall₂ (d.Answers shown) as cs) (hcs' : List.Forall₂ (d.Answers shown) as' cs') :
    List.Forall₂ Column.Renamed cs cs' ↔ as'.map d.face = as.map d.face := by
  induction hcs generalizing as' cs' with
  | nil =>
    cases hcs' with
    | nil => simp
    | cons _ _ => simp
  | cons ha _ ih =>
    cases hcs' with
    | nil => simp
    | cons ha' hrest' =>
      rw [List.forall₂_cons, List.map_cons, List.map_cons, List.cons.injEq, ih hrest']
      refine and_congr_left fun _ => ?_
      obtain ⟨id, e, he, rfl⟩ := ha
      obtain ⟨id', e', he', rfl⟩ := ha'
      simp only [face, he, he', Column.Renamed, column, Except.map, Column.mk.injEq, Prod.mk.injEq,
        Except.ok.injEq, true_and, and_true]

/-- A field asks for one column of every field that it stands for. -/
theorem asked_field (ctx : Context) (d : Draft) (n : Node) (name : String) :
    (d.asked ctx ⟨.field n, name⟩).map (fun a => (a.key, a.expr)) =
      (d.selectedFields ctx ⟨.field n, name⟩).map fun f => (f, d.fieldExpr ctx n.place f) := by
  simp only [asked, selectedFields]
  split
  · rw [List.map_map]
    rfl
  · rfl

/-- A field that stands for the same fields under another name asks for the same keys and faces. -/
theorem asked_of_selectedFields {n : Node} {name name' : String}
    (h : d.selectedFields ctx ⟨.field n, name'⟩ = d.selectedFields ctx ⟨.field n, name⟩) :
    (d.asked ctx ⟨.field n, name'⟩).map (·.key) = (d.asked ctx ⟨.field n, name⟩).map (·.key) ∧
      (d.asked ctx ⟨.field n, name'⟩).map d.face = (d.asked ctx ⟨.field n, name⟩).map d.face := by
  have hsame : (d.asked ctx ⟨.field n, name'⟩).map (fun a => (a.key, a.expr)) =
      (d.asked ctx ⟨.field n, name⟩).map fun a => (a.key, a.expr) := by
    rw [asked_field, asked_field, h]
  constructor
  · simpa [Function.comp_def] using congrArg (List.map Prod.fst) hsame
  · let look (x : String × Except SyntaxError Expr) := d.face ⟨"", x.1, x.2⟩
    have hfaces := congrArg (List.map look) hsame
    rw [List.map_map, List.map_map] at hfaces
    exact hfaces

/-- A clause is one entry of a query, with the pipes after it. -/
theorem attachExtensions_middle {g : Group} {c : Clause} (hg : g.Starts c)
    (front back : List Node) :
    attachExtensions (front ++ g.toNode :: back) =
      ((attachExtensions front).1, (attachExtensions front).2 ++
        (g.toNode, (attachExtensions back).1) :: (attachExtensions back).2) := by
  have hentry := attachExtensions_cons (Node.extension?_of_starts hg) back
  rw [attachExtensions_append (congrArg Prod.fst hentry), hentry]

/-- Another `select` clause that can be read in the place of the first one changes the columns only. -/
theorem exists_ofRoot_select {root root' clause clause' : Group} {front back : List Node}
    (hroot : root.children = front ++ clause.toNode :: back) (hclause : clause.Starts .select)
    (hroot' : root'.children = front ++ clause'.toNode :: back) (hclause' : clause'.Starts .select)
    (hshow : ∀ g : Group, g.toNode ∈ root.children → ¬ g.Starts .present)
    (h : ofRoot ctx root = .ok d) :
    ∃ d₀ d₁ : Draft, d₀.readSelect ctx clause = .ok d₁ ∧ d.evals = d₀.evals ∧
      ∀ d₁', d₀.readSelect ctx clause' = .ok d₁' →
        ∃ d', ofRoot ctx root' = .ok d' ∧ OnlyColumns d d' := by
  obtain ⟨hnone, hread⟩ := ofRoot_eq_ok_iff.mp h
  rw [hroot, attachExtensions_middle hclause] at hnone hread
  rw [readEntries_append] at hread
  obtain ⟨d₀, hfront, hrest⟩ := bind_eq_ok.mp hread
  obtain ⟨d₂, hturn, hback⟩ := bind_eq_ok.mp hrest
  obtain ⟨c, d₁, hc, horder, hread₁, rfl⟩ := readEntry_eq_ok_iff.mp hturn
  obtain ⟨place, hplace⟩ := Node.exists_clauseGroup hclause
  obtain ⟨place', hplace'⟩ := Node.exists_clauseGroup hclause'
  cases hplace.symm.trans hc
  obtain ⟨hselect, hnil⟩ := readAlone_eq_ok_iff.mp hread₁
  have honly := onlyColumns_readSelect hselect
  refine ⟨d₀, d₁, hselect, ?_, fun d₁' hselect' => ?_⟩
  · have hlate : Clause.select ∉ Clause.eval.validAfter := by decide
    rw [owns_evals.readEntries hlate (by simp) hback]
    obtain ⟨columns, added, rfl⟩ := honly
    rfl
  · have hread₁' : d₀.readClause ctx ⟨.select, place', clause'⟩ (attachExtensions back).1 =
        .ok d₁' := readAlone_eq_ok_iff.mpr ⟨hselect', hnil⟩
    have horder' : Clause.checkOrder place' .select d₀.consumed = .ok () :=
      (Clause.checkOrder_perm place place' .select (.refl _)).mp horder
    have hturn' : d₀.readEntry ctx (clause'.toNode, (attachExtensions back).1) =
        .ok { d₁' with consumed := d₁'.consumed ++ [.select] } :=
      readEntry_eq_ok_iff.mpr ⟨_, d₁', hplace', horder', hread₁', rfl⟩
    have honly' : OnlyColumns { d₁ with consumed := d₁.consumed ++ [.select] }
        { d₁' with consumed := d₁'.consumed ++ [.select] } := by
      obtain ⟨columns, added, rfl⟩ := honly.symm.trans (onlyColumns_readSelect hselect')
      exact ⟨columns, added, rfl⟩
    have hshow' : ∀ g : Group, g.toNode ∈ (attachExtensions back).2.map (·.1) →
        ¬ g.Starts .present := by
      intro g hg
      rw [entries_attachExtensions] at hg
      refine hshow g ?_
      rw [hroot]
      exact List.mem_append_right _ (List.mem_cons_of_mem _ (List.mem_of_mem_filter hg))
    obtain ⟨d', hback', honlyLast⟩ := onlyColumns_readEntries (by simp) hshow' honly' hback
    refine ⟨d', ofRoot_eq_ok_iff.mpr ?_, honlyLast⟩
    rw [hroot', attachExtensions_middle hclause', readEntries_append]
    exact ⟨hnone, bind_eq_ok.mpr ⟨d₀, hfront, bind_eq_ok.mpr ⟨_, hturn', hback'⟩⟩⟩

/-- A clause can be read with a name after one of its entries, and only the name of that selection
is another one. -/
theorem exists_readSelect_named {catalog : Catalog} (hctx : ctx.services = .ofCatalog catalog)
    {clause clause' : Group} {entry name : Node}
    (hnames : SelectClause.Names clause entry name clause') (h : d.readSelect ctx clause = .ok d') :
    ∃ ss ss', d.selections ctx clause = ss ++ ⟨.field entry, entry.unescaped⟩ :: ss' ∧
      d.selections ctx clause' = ss ++ ⟨.field entry, name.unescaped⟩ :: ss' ∧
      ∃ d₁, d.readSelect ctx clause' = .ok d₁ := by
  obtain ⟨hchildren, hentry, hword, hname⟩ := hnames
  obtain ⟨sel, hsel, hadd⟩ := readSelect_eq_ok_iff.mp h
  have hread := hsel
  rw [SelectClause.read, hchildren] at hread
  obtain ⟨ss, ss', rfl, hnamed⟩ := SelectClause.readNodes_named hentry hword hname hread
  obtain ⟨d₁, hd₁⟩ := exists_addSelections hctx (ss ++ ⟨.field entry, name.unescaped⟩ :: ss') d {}
  refine ⟨ss, ss', congrArg Prod.fst hsel, congrArg Prod.fst hnamed, d₁, ?_⟩
  exact readSelect_eq_ok_iff.mpr ⟨_, hnamed, hd₁⟩

/-- The columns of the second draft are those that the selections ask for in the first one, and their
keys are noted. -/
structure Shows (ctx : Context) (d : Draft) (ss : List Selection) (d' : Draft) : Prop where
  columns : List.Forall₂ (d.Answers true) (ss.flatMap (d.asked ctx)) d'.table.columns
  added : ∀ n, n ∈ d'.added ↔ n ∈ (ss.flatMap (d.asked ctx)).map (·.key)

private theorem Shows.of_ofRoot {root g : Group} {e : Draft} (honly : OnlyColumns e d)
    (h : ofRoot ctx root = .ok d) (hg : g.toNode ∈ root.children) (hselect : g.Starts .select) :
    Shows ctx e (e.selections ctx g) d := by
  obtain ⟨hcolumns, hadded⟩ := selected_ofRoot h hg hselect
  obtain ⟨_, _, rfl⟩ := honly
  exact ⟨hcolumns, hadded⟩

section
variable {ss ss' : List Selection} {n : Node} {name name' : String}
  (h : Shows ctx d (ss ++ ⟨.field n, name⟩ :: ss') d)
  (h' : Shows ctx d (ss ++ ⟨.field n, name'⟩ :: ss') d')
include h h'

/-- Another name for one field keeps the columns exactly if it keeps what the field asks for. -/
theorem renamed_columns_iff :
    List.Forall₂ Column.Renamed d.table.columns d'.table.columns ↔
      (d.asked ctx ⟨.field n, name'⟩).map d.face = (d.asked ctx ⟨.field n, name⟩).map d.face := by
  rw [renamed_iff_faces h.columns h'.columns]
  simp only [List.flatMap_append, List.flatMap_cons, List.map_append, List.append_cancel_left_eq,
    List.append_cancel_right_eq]

private theorem renamed_of_selectedFields (honly : OnlyColumns d d')
    (hfields : d.selectedFields ctx ⟨.field n, name'⟩ = d.selectedFields ctx ⟨.field n, name⟩) :
    Renamed d d' := by
  obtain ⟨hkeys, hfaces⟩ := asked_of_selectedFields hfields
  refine ⟨honly, (renamed_columns_iff h h').mpr hfaces, fun x => ?_⟩
  rw [h.added, h'.added]
  simp only [List.flatMap_append, List.flatMap_cons, List.map_append, hkeys]

end

/-- A name after an entry of the `select` clause changes the columns of the draft only. -/
theorem exists_ofRoot_named {catalog : Catalog} (hctx : ctx.services = .ofCatalog catalog)
    {root root' clause clause' : Group} {entry name : Node} {front back : List Node}
    (hroot : root.children = front ++ clause.toNode :: back) (hselect : clause.Starts .select)
    (hroot' : root'.children = front ++ clause'.toNode :: back)
    (hnames : SelectClause.Names clause entry name clause')
    (hshow : ∀ g : Group, g.toNode ∈ root.children → ¬ g.Starts .present)
    (h : ofRoot ctx root = .ok d) :
    ∃ d' ss ss', ofRoot ctx root' = .ok d' ∧ OnlyColumns d d' ∧
      d.selections ctx clause = ss ++ ⟨.field entry, entry.unescaped⟩ :: ss' ∧
      Shows ctx d (ss ++ ⟨.field entry, entry.unescaped⟩ :: ss') d ∧
      Shows ctx d (ss ++ ⟨.field entry, name.unescaped⟩ :: ss') d' := by
  have hselect' := hnames.starts hselect
  obtain ⟨d₀, d₁, hread, hevals, hall⟩ :=
    exists_ofRoot_select hroot hselect hroot' hselect' hshow h
  obtain ⟨ss, ss', hss, hss', d₁', hread'⟩ := exists_readSelect_named hctx hnames hread
  obtain ⟨d', hd', honly⟩ := hall d₁' hread'
  rw [← selections_congr hevals] at hss hss'
  refine ⟨d', ss, ss', hd', honly, hss, ?_, ?_⟩
  · rw [← hss]
    exact .of_ofRoot (.refl d) h (by simp [hroot]) hselect
  · rw [← hss']
    exact .of_ofRoot honly hd' (by simp [hroot']) hselect'

end

end Draft

/-- The second query is the first one with `as` and a name after an entry of its `select` clause.
What stands around them may stand elsewhere in its text. -/
inductive Aliases (clause : Group) (entry name : Node) : List Node → List Node → Prop
  | mk {front back ns : List Node} {clause' : Group} (select : clause.Starts .select)
    (names : SelectClause.Names clause entry name clause')
    (resembles : List.Forall₂ Node.Resembles (front ++ clause'.toNode :: back) ns) :
    Aliases clause entry name (front ++ clause.toNode :: back) ns

/-- A name for a selected field. Take two queries without `show`, where the second one has `as` and a
name after a field of its `select` clause. With the readers of this library it compiles if the first
one does. Their requests differ at most in the columns of the table. Those that are shown are the
ones that the clause with the name asks for. They are the same as without it, but for names and
identifiers, exactly if the field asks for columns of the same faces under both names. This holds for
the hidden columns too if the field stands for the same fields. -/
theorem alias_renames {catalog : Catalog} {ctx : Context}
    (hctx : ctx.services = .ofCatalog catalog) {text text' : String} {root root' clause : Group}
    {entry name : Node} {request : SearchRequest} (h : compile ctx text = .ok request)
    (hroot : rootOf text = .ok root) (hroot' : rootOf text' = .ok root')
    (halias : Aliases clause entry name root.children root'.children)
    (hshow : ∀ g : Group, g.toNode ∈ root.children → ¬ g.Starts .present) :
    ∃ d table columns ss ss', Draft.ofRoot ctx root = .ok d ∧
      request.results = [⟨Draft.tableId, [table], .table⟩] ∧
      compile ctx text' = .ok { request with
        results := [⟨Draft.tableId, [{ table with columns := columns }], .table⟩] } ∧
      d.selections ctx clause = ss ++ ⟨.field entry, entry.unescaped⟩ :: ss' ∧
      List.Forall₂ (d.Answers true)
        ((ss ++ ⟨.field entry, name.unescaped⟩ :: ss').flatMap (d.asked ctx))
        (columns.filter (·.visible)) ∧
      (List.Forall₂ Column.Renamed table.visibleColumns (columns.filter (·.visible)) ↔
        (d.asked ctx ⟨.field entry, name.unescaped⟩).map d.face =
          (d.asked ctx ⟨.field entry, entry.unescaped⟩).map d.face) ∧
      (d.selectedFields ctx ⟨.field entry, name.unescaped⟩ =
          d.selectedFields ctx ⟨.field entry, entry.unescaped⟩ →
        List.Forall₂ Column.Renamed table.columns columns) := by
  obtain ⟨root₁, hroot₁, hcompile⟩ := bind_eq_ok.mp h
  cases hroot.symm.trans (Result.ofExcept_eq_ok.mp hroot₁)
  obtain ⟨d, hd, hfinish⟩ := bind_eq_ok.mp hcompile
  generalize hnodes : root.children = nodes at halias
  generalize hnodes' : root'.children = nodes' at halias
  cases halias with
  | @mk front back _ clause' hselect hnames hresembles =>
    let named : Group := { root with children := front ++ clause'.toNode :: back }
    obtain ⟨d', ss, ss', hd', honly, hss, hshows, hshows'⟩ :=
      Draft.exists_ofRoot_named hctx hnodes hselect (rfl : named.children = _) hnames hshow hd
    obtain ⟨_, hchosen⟩ := Draft.chosen_ofRoot hd
    obtain ⟨_, hchosen'⟩ := Draft.chosen_ofRoot hd'
    obtain ⟨table, columns, hresults, hfinish', hvisible, hvisible', hrenamed⟩ :=
      Draft.finish_onlyColumns hctx honly (Draft.visual_of_noShow hshow hd) hchosen.visible
        hchosen'.visible (Result.ofExcept_eq_ok.mp hfinish)
    have hcompile' : compileRoot ctx named = .ok _ :=
      bind_eq_ok.mpr ⟨d', hd', Result.ofExcept_eq_ok.mpr hfinish'⟩
    have hsee : ctx.services.SeeNodes := hctx ▸ Services.seeNodes_ofCatalog catalog
    refine ⟨d, table, columns, ss, ss', hd, hresults, ?_, hss, ?_, ?_, ?_⟩
    · refine bind_eq_ok.mpr ⟨root', Result.ofExcept_eq_ok.mpr hroot', ?_⟩
      exact compileRoot_resembling hsee (hnodes' ▸ hresembles) hcompile'
    · rw [hvisible']
      exact hshows'.columns
    · rw [Table.visibleColumns, hvisible, hvisible']
      exact Draft.renamed_columns_iff hshows hshows'
    · intro hfields
      exact hrenamed (Draft.renamed_of_selectedFields hshows hshows' honly hfields)

namespace Alias.Sample

def query : String := "from a select b,c limit 1"

/-- The query with a name for its first column. All that comes after the name is moved. -/
def aliased : String := "from a select b as d,c limit 1"

def token (text : String) (kind : TokenKind) (start stop : Nat) : Node :=
  .token ⟨kind, text, ⟨start, stop⟩⟩

def clause (text : String) (c : Clause) (start mid stop : Nat) (children : List Node) : Group :=
  ⟨.clause ⟨.clause c, text, ⟨start, mid⟩⟩, text, ⟨start, stop⟩, children⟩

def source (text : String) : Group := clause text .source 0 4 6 [token text .word 5 6]

def limit (text : String) (start : Nat) : Group :=
  clause text .limit start (start + 5) (start + 7) [token text .number (start + 6) (start + 7)]

def entry : Node := token query .word 14 15

def name : Node := token aliased .word 19 20

def select : Group :=
  clause query .select 7 13 17 [entry, token query .comma 15 16, token query .word 16 17]

def root : Group :=
  ⟨.root, query, ⟨0, 25⟩, [(source query).toNode, select.toNode, (limit query 18).toNode]⟩

def named : Group :=
  { select with children := [entry, token aliased .asWord 16 18, name, token query .comma 15 16,
      token query .word 16 17] }

def selectAliased : Group :=
  clause aliased .select 7 13 22 [token aliased .word 14 15, token aliased .asWord 16 18, name,
    token aliased .comma 20 21, token aliased .word 21 22]

def rootAliased : Group :=
  ⟨.root, aliased, ⟨0, 30⟩,
    [(source aliased).toNode, selectAliased.toNode, (limit aliased 23).toNode]⟩

/-- What does not belong to the name shows the same in both texts. -/
theorem slices : (Text.slice query ⟨5, 6⟩ = Text.slice aliased ⟨5, 6⟩ ∧
    Text.slice query ⟨14, 15⟩ = Text.slice aliased ⟨14, 15⟩) ∧
    (Text.slice query ⟨15, 16⟩ = Text.slice aliased ⟨20, 21⟩ ∧
      Text.slice query ⟨16, 17⟩ = Text.slice aliased ⟨21, 22⟩) ∧
    Text.slice query ⟨24, 25⟩ = Text.slice aliased ⟨29, 30⟩ := by
  decide +kernel

private theorem aliases : Aliases select entry name root.children rootAliased.children := by
  obtain ⟨⟨ha, hb⟩, ⟨hcomma, hc⟩, hone⟩ := slices
  have hentry : SelectClause.IsEntry [] entry [token query .comma 15 16, token query .word 16 17] := by
    refine ⟨rfl, ?_, ?_⟩
    · intro c hc
      cases hc
    · intro c hc
      cases hc
      rfl
  have hword : (token aliased .asWord 16 18).kind = .asWord := rfl
  have hnamed : SelectClause.Names select entry name named := .mk rfl hentry hword rfl
  have hclauses : List.Forall₂ Node.Resembles
      ([(source query).toNode] ++ named.toNode :: [(limit query 18).toNode])
      rootAliased.children := by
    refine .cons (.clause (c := .source) (.keyword _ rfl rfl) (.keyword _ rfl rfl) ?_) ?_
    · simp only [source, clause, token, List.map_cons, List.map_nil, Node.alone, Token.alone,
        Token.slice, ha]
    refine .cons (.clause (c := .select) (.keyword _ rfl rfl) (.keyword _ rfl rfl) ?_) ?_
    · simp only [selectAliased, named, entry, name, clause, token, List.map_cons, List.map_nil,
        Node.alone, Token.alone, Token.slice, hb, hcomma, hc]
    refine .cons (.clause (c := .limit) (.keyword _ rfl rfl) (.keyword _ rfl rfl) ?_) .nil
    simp only [limit, clause, token, List.map_cons, List.map_nil, Node.alone, Token.alone,
      Token.slice, Nat.reduceAdd, hone]
  exact .mk (.keyword _ rfl rfl) hnamed hclauses

end Alias.Sample

open Alias.Sample in
theorem alias_renames_sample :
    ∃ request table columns, compile .sample query = .ok request ∧
      request.results = [⟨Draft.tableId, [table], .table⟩] ∧
      compile .sample aliased = .ok { request with
        results := [⟨Draft.tableId, [{ table with columns := columns }], .table⟩] } ∧
      List.Forall₂ Column.Renamed table.columns columns := by
  have hok : (compile .sample query).isOk = true := by decide +kernel
  obtain ⟨request, h⟩ := exists_eq_ok_of_isOk hok
  have hroot : rootOf query = .ok root := eq_ok_of_toOption (by decide +kernel)
  have hroot' : rootOf aliased = .ok rootAliased := eq_ok_of_toOption (by decide +kernel)
  have hnone : Node.holds root.children .present = false := by decide +kernel
  have hshow : ∀ g : Group, g.toNode ∈ root.children → ¬ g.Starts .present := by
    intro g hg hstarts
    rw [Node.holds_iff.mpr ⟨g, hg, hstarts⟩] at hnone
    cases hnone
  have hctx : Context.sample.services = .ofCatalog .sample := rfl
  obtain ⟨d, table, columns, ss, ss', -, hresults, hcompile, -, -, -, hrenamed⟩ :=
    alias_renames hctx h hroot hroot' aliases hshow
  refine ⟨request, table, columns, h, hresults, hcompile, hrenamed ?_⟩
  have hplain : Draft.isWildcard entry entry.unescaped = false := by decide +kernel
  have hnamed : Draft.isWildcard entry name.unescaped = false := by decide +kernel
  simp only [Draft.selectedFields, hplain, hnamed]

open Alias.Sample in
/-- Under the name of the wildcard a field is no longer selected. -/
theorem alias_star_deselects :
    ((compile .sample "from a select b").toOption.bind (·.table?)).map
        (·.visibleColumns.map (·.expression)) = some ["$\x7bb\x7d"] ∧
      ((compile .sample "from a select b as '*'").toOption.bind (·.table?)).map
        (·.visibleColumns.map (·.expression)) = some [] := by
  decide +kernel

end PipeQuery
