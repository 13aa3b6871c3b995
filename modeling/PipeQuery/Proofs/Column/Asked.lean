import Mathlib.Data.List.Forall2
import PipeQuery.Proofs.Column.Distinct
import PipeQuery.Proofs.Draft.Turn

/-!
The columns that clauses ask for. A selection asks for columns that are shown, and a name from
`having` for one that is hidden. Adding the columns of a list gives exactly those that are asked
for, in order, and notes the key of each.
-/
namespace PipeQuery

/-- A column that is asked for: its name, the key that its place in the order and in the groups is
found by, and its expression, or why it has none. -/
structure Asked where
  name : String
  key : String
  expr : Except SyntaxError Expr

namespace Draft

/-- The columns that a selection asks for. A wildcard asks for those of the fields that it stands
for. -/
def asked (ctx : Context) (d : Draft) (s : Selection) : List Asked :=
  match s.chosen with
  | .field n =>
    if isWildcard n s.name then
      (d.expand ctx n).map fun field => ⟨field, field, d.fieldExpr ctx n.place field⟩
    else [⟨s.name, n.unescaped, d.fieldExpr ctx n.place n.unescaped⟩]
  | .expression e => [⟨s.name, s.name, .ok e⟩]

def askedBy (ctx : Context) (d : Draft) (h : HavingField) : Asked :=
  ⟨h.name, h.name, d.fieldExpr ctx h.place h.name⟩

def Answers (d : Draft) (shown : Bool) (a : Asked) (c : Column) : Prop :=
  ∃ id e, a.expr = .ok e ∧ c = d.column id a.name a.key e shown !shown

/-- The second draft has the columns that are asked for after those of the first one, and their keys
are noted. -/
structure Adds (shown : Bool) (as : List Asked) (d d' : Draft) : Prop where
  only : OnlyColumns d d'
  added : ∀ n, n ∈ d'.added ↔ n ∈ as.map (·.key) ∨ n ∈ d.added
  columns : ∃ columns, d'.table.columns = d.table.columns ++ columns ∧
    List.Forall₂ (d.Answers shown) as columns

/-- Every column that is asked for is there, and every column there is asked for. -/
theorem exists_of_answers {shown : Bool} {d : Draft} {as : List Asked} {cs : List Column}
    (h : List.Forall₂ (d.Answers shown) as cs) :
    (∀ a ∈ as, ∃ c ∈ cs, d.Answers shown a c) ∧ ∀ c ∈ cs, ∃ a ∈ as, d.Answers shown a c := by
  induction h with
  | nil => simp
  | cons hac _ ih =>
    simp only [List.forall_mem_cons, List.exists_mem_cons_iff]
    exact ⟨⟨.inl hac, fun a ha => .inr (ih.1 a ha)⟩, .inl hac, fun c hc => .inr (ih.2 c hc)⟩

theorem names_of_answers {shown : Bool} {d : Draft} {as : List Asked} {cs : List Column}
    (h : List.Forall₂ (d.Answers shown) as cs) : cs.map (·.name) = as.map (·.name) := by
  induction h with
  | nil => rfl
  | cons hac _ ih =>
    obtain ⟨id, e, -, rfl⟩ := hac
    rw [List.map_cons, ih, List.map_cons]
    rfl

theorem Answers.flags {shown : Bool} {d : Draft} {a : Asked} {c : Column}
    (h : d.Answers shown a c) : c.visible = shown ∧ c.special = !shown := by
  obtain ⟨id, e, -, rfl⟩ := h
  exact ⟨rfl, rfl⟩

/-- The columns that are asked for hang on the source and the named expressions of a draft, and
those that answer on its order and its groups. -/
theorem answers_congr (ctx : Context) {d d' : Draft} (hevals : d'.evals = d.evals)
    (hsource : d'.source = d.source) (hsorts : d'.sorts = d.sorts) (hgroups : d'.groups = d.groups) :
    d'.asked ctx = d.asked ctx ∧ ∀ shown, d'.Answers shown = d.Answers shown := by
  have hexpr : d'.fieldExpr ctx = d.fieldExpr ctx := by
    funext place field
    rw [fieldExpr, fieldExpr, hevals]
  have hexpand : d'.expand ctx = d.expand ctx := by
    funext n
    rw [expand, expand, hsource]
  have hcolumn : d'.column = d.column := by
    funext id name key e visible special
    rw [column, column, hsorts, hgroups]
  constructor
  · funext s
    rw [asked, asked, hexpr, hexpand]
  · intro shown
    funext a c
    rw [Answers, Answers, hcolumn]

namespace Adds
variable {shown : Bool} {d d₁ d₂ : Draft}

theorem refl (shown : Bool) (d : Draft) : Adds shown [] d d :=
  ⟨.refl d, by simp, [], by simp⟩

theorem trans {as bs : List Asked} (h : Adds shown as d d₁) (h' : Adds shown bs d₁ d₂) :
    Adds shown (as ++ bs) d d₂ := by
  obtain ⟨columns, hcolumns, hanswers⟩ := h.columns
  obtain ⟨columns', hcolumns', hanswers'⟩ := h'.columns
  refine ⟨h.only.trans h'.only, ?_, columns ++ columns', ?_, List.rel_append hanswers ?_⟩
  · intro n
    rw [h'.added, h.added, List.map_append, List.mem_append, or_left_comm, or_assoc]
  · rw [hcolumns', hcolumns, List.append_assoc]
  · -- Columns in between change nothing that a column is made from.
    obtain ⟨_, _, rfl⟩ := h.only
    exact hanswers'

theorem noteColumn (d : Draft) (id : String) {a : Asked} {e : Expr} (he : a.expr = .ok e) :
    Adds shown [a] d ((d.note a.key).addColumn (d.column id a.name a.key e shown !shown)) := by
  refine ⟨.noteColumn d _ _, ?_, [_], columns_noteColumn d _ _, .cons ⟨id, e, he, rfl⟩ .nil⟩
  intro n
  rw [mem_added_noteColumn, List.map_singleton, List.mem_singleton]

end Adds

section
variable {ctx : Context} {d d' : Draft}

private theorem adds_addField {place : Place} {id field name : String} {shown : Bool}
    (h : d.addField ctx place id field name shown (!shown) = .ok d') :
    Adds shown [⟨name, field, d.fieldExpr ctx place field⟩] d d' := by
  obtain ⟨e, he, hd⟩ := bind_eq_ok.mp h
  cases hd
  exact .noteColumn d id (a := ⟨name, field, d.fieldExpr ctx place field⟩) he

private theorem adds_addFields {place : Place} {fields : List String} {counts : ColumnId.Counts}
    {r : Draft × ColumnId.Counts} (h : addFields ctx place d counts fields = .ok r) :
    Adds true (fields.map fun field => ⟨field, field, d.fieldExpr ctx place field⟩) d r.1 := by
  induction fields generalizing d counts with
  | nil =>
    cases h
    exact .refl true d
  | cons field fields ih =>
    obtain ⟨d₁, hfield, hrest⟩ := bind_eq_ok.mp h
    have hone := adds_addField hfield
    have hmore := ih hrest
    refine hone.trans ?_
    obtain ⟨_, _, rfl⟩ := hone.only
    exact hmore

private theorem adds_addSelection {counts : ColumnId.Counts} {s : Selection}
    {r : Draft × ColumnId.Counts} (h : d.addSelection ctx counts s = .ok r) :
    Adds true (d.asked ctx s) d r.1 := by
  rw [addSelection] at h
  split at h
  next n hn =>
    simp only [asked, hn]
    split at h
    next hw =>
      rw [if_pos hw]
      exact adds_addFields h
    next hw =>
      rw [if_neg hw]
      obtain ⟨d₁, hfield, hr⟩ := bind_eq_ok.mp h
      cases hr
      exact adds_addField hfield
  next e he =>
    cases h
    simp only [asked, he]
    exact .noteColumn d _ (a := ⟨s.name, s.name, .ok e⟩) rfl

private theorem adds_addSelections {selections : List Selection} {counts : ColumnId.Counts}
    (h : addSelections ctx d counts selections = .ok d') :
    Adds true (selections.flatMap (d.asked ctx)) d d' := by
  induction selections generalizing d counts with
  | nil =>
    cases h
    exact .refl true _
  | cons s selections ih =>
    obtain ⟨⟨d₁, counts₁⟩, hs, hrest⟩ := bind_eq_ok.mp h
    have hone := adds_addSelection hs
    have hmore := ih hrest
    refine hone.trans ?_
    obtain ⟨_, _, hd₁⟩ := hone.only
    cases hd₁
    exact hmore

def selections (ctx : Context) (d : Draft) (clause : Group) : List Selection :=
  (SelectClause.read (fun n => d.readScalar ctx clause [n]) clause).1

theorem selections_congr (h : d'.evals = d.evals) : d'.selections ctx = d.selections ctx := by
  have hscalar : d'.readScalar ctx = d.readScalar ctx := by
    funext clause nodes
    rw [readScalar, readScalar, h]
  funext clause
  rw [selections, selections, hscalar]

theorem adds_readSelect {clause : Group} (h : d.readSelect ctx clause = .ok d') :
    Adds true ((d.selections ctx clause).flatMap (d.asked ctx)) d d' := by
  obtain ⟨d₁, hselections, hfault⟩ := bind_eq_ok.mp h
  split at hfault
  · cases hfault
    exact adds_addSelections hselections
  · cases hfault

/-- One hidden column is asked for by each name that has none, when it comes for the first time. -/
theorem adds_addHidden {fields : List HavingField} (h : addHidden ctx d fields = .ok d') :
    ∃ hs : List HavingField, hs.Sublist fields ∧ Adds false (hs.map (d.askedBy ctx)) d d' ∧
      (hs.map (·.name)).Nodup ∧ (∀ f ∈ hs, f.name ∉ d.added) ∧ ∀ f ∈ fields, f.name ∈ d'.added := by
  induction fields generalizing d with
  | nil =>
    cases h
    exact ⟨[], .slnil, .refl false _, .nil, by simp, by simp⟩
  | cons f fields ih =>
    rw [addHidden] at h
    split at h
    next hf =>
      obtain ⟨hs, hsub, hadds, hnodup, hnew, hall⟩ := ih h
      refine ⟨hs, hsub.cons f, hadds, hnodup, hnew, ?_⟩
      intro f' hf'
      rcases List.mem_cons.mp hf' with rfl | hf'
      · exact (hadds.added _).mpr (.inr (by simpa using hf))
      · exact hall f' hf'
    next hf =>
      obtain ⟨d₁, hfield, hrest⟩ := bind_eq_ok.mp h
      have hone : Adds false [d.askedBy ctx f] d d₁ := adds_addField hfield
      obtain ⟨hs, hsub, hadds, hnodup, hnew, hall⟩ := ih hrest
      refine ⟨f :: hs, hsub.cons_cons f, ?_, ?_, ?_, ?_⟩
      · refine hone.trans ?_
        obtain ⟨_, _, rfl⟩ := hone.only
        exact hadds
      · rw [List.map_cons, List.nodup_cons]
        refine ⟨fun hmem => ?_, hnodup⟩
        obtain ⟨f', hf', hname⟩ := List.mem_map.mp hmem
        exact hnew f' hf' ((hone.added _).mpr (.inl (by simp [askedBy, hname])))
      · intro f' hf' hmem
        rcases List.mem_cons.mp hf' with rfl | hf'
        · exact hf (by simpa using hmem)
        · exact hnew f' hf' ((hone.added _).mpr (.inr hmem))
      · intro f' hf'
        rcases List.mem_cons.mp hf' with rfl | hf'
        · exact (hadds.added _).mpr (.inr ((hone.added _).mpr (.inl (by simp [askedBy]))))
        · exact hall f' hf'

end

end Draft

end PipeQuery
