import PipeQuery.Compile
import PipeQuery.Proofs.Error.Located

/-!
Where columns are refused: at the node that asks for one, at the clause that an expression stands
in, or at the condition that a hidden column is for.
-/
namespace PipeQuery

open SyntaxError (Located)

section
variable {text : String}

def Selection.Placed (text : String) (s : Selection) : Prop :=
  ∀ n, s.chosen = .field n → n.Placed text

namespace SelectClause

def Progress.Placed (text : String) (p : Progress) : Prop :=
  ∀ s, p.finish? = some s → s.Placed text

private theorem placed_nothing : Progress.nothing.Placed text := by
  intro s hs
  cases hs

private theorem ends_readField {n : Node} {p : Progress} (hn : n.Placed text) (hp : p.Placed text) :
    Ends (Located text) (Progress.Placed text) (readField n p) := by
  unfold readField
  split
  · rintro _ ⟨⟩ _ ⟨⟩
    exact hn
  · exact hn.place.located _
  · exact hn.place.located _
  · rintro _ ⟨⟩ m hm
    exact hp _ rfl m hm
  · exact hn.place.located _

private theorem ends_readAs {n : Node} {p : Progress} (hn : n.Placed text) (hp : p.Placed text) :
    Ends (Located text) (Progress.Placed text) (readAs n p) := by
  unfold readAs
  split
  · exact hn.place.located _
  · rintro _ ⟨⟩
    exact hp _ rfl
  · exact hn.place.located _
  · exact hn.place.located _

private theorem ends_readNode {scalar : Node → Except SyntaxError Expr}
    (hscalar : ∀ n, Ends (Located text) (fun _ => True) (scalar n)) {n : Node} {p : Progress}
    (hn : n.Placed text) (hp : p.Placed text) :
    Ends (Located text) (Progress.Placed text) (readNode scalar p n) := by
  unfold readNode
  split
  · split
    · refine (hscalar n).bind fun e _ _ => ?_
      rintro _ ⟨⟩ _ ⟨⟩
    · exact hn.place.located _
  · split
    · exact ends_readField hn hp
    · split
      · exact ends_readAs hn hp
      · exact hn.place.located _

/-- The selections before a fault, and the fault. -/
theorem placed_readNodes {scalar : Node → Except SyntaxError Expr}
    (hscalar : ∀ n, Ends (Located text) (fun _ => True) (scalar n)) {nodes : List Node}
    (h : ∀ n ∈ nodes, n.Placed text) {p : Progress} (hp : p.Placed text) :
    (∀ s ∈ (readNodes scalar p nodes).1, s.Placed text) ∧
      ∀ e, (readNodes scalar p nodes).2 = some e → e.Located text := by
  induction nodes generalizing p with
  | nil =>
    constructor
    · intro s hs
      exact hp s (by simpa [readNodes] using hs)
    · intro e he
      cases he
  | cons n nodes ih =>
    obtain ⟨hn, hnodes⟩ := List.forall_mem_cons.mp h
    rw [readNodes]
    split
    · split
      next s hs =>
        obtain ⟨hrest, hfault⟩ := ih hnodes placed_nothing
        exact ⟨List.forall_mem_cons.mpr ⟨hp s hs, hrest⟩, hfault⟩
      next =>
        refine ⟨by simp, ?_⟩
        rintro _ ⟨⟩
        exact hn.place.located _
    · have hnode := ends_readNode hscalar hn hp
      split
      next p' hr =>
        rw [hr] at hnode
        exact ih hnodes hnode
      next e hr =>
        rw [hr] at hnode
        refine ⟨by simp, ?_⟩
        rintro _ ⟨⟩
        exact hnode

end SelectClause

namespace Draft
variable {ctx : Context}

theorem ends_readScalar (d : Draft) {clause : Group} (h : clause.Placed text) (nodes : List Node) :
    Ends (Located text) (fun _ => True) (d.readScalar ctx clause nodes) := by
  rw [readScalar]
  split
  · trivial
  · exact h.place.located _

private theorem ends_fieldExpr (d : Draft) {place : Place} (h : place.Points text)
    (field : String) : Ends (Located text) (fun _ => True) (d.fieldExpr ctx place field) := by
  rw [fieldExpr]
  split
  · trivial
  · split
    · trivial
    · exact h.located _

private theorem ends_addField (d : Draft) {place : Place} (h : place.Points text)
    (id field name : String) (visible special : Bool) :
    Ends (Located text) (fun _ => True) (d.addField ctx place id field name visible special) :=
  (d.ends_fieldExpr h field).bind fun _ _ _ => trivial

private theorem ends_addFields {place : Place} (h : place.Points text) (fields : List String)
    (d : Draft) (counts : ColumnId.Counts) :
    Ends (Located text) (fun _ => True) (addFields ctx place d counts fields) := by
  induction fields generalizing d counts with
  | nil => trivial
  | cons field fields ih =>
    exact (d.ends_addField h _ field field true false).bind fun d' _ _ => ih d' _

private theorem ends_addSelection (d : Draft) (counts : ColumnId.Counts) {s : Selection}
    (h : s.Placed text) : Ends (Located text) (fun _ => True) (d.addSelection ctx counts s) := by
  rw [addSelection]
  split
  next n hn =>
    have hplace := (h n hn).place
    split
    · exact ends_addFields hplace _ d counts
    · exact (d.ends_addField hplace _ _ _ _ _).bind fun _ _ _ => trivial
  next => trivial

private theorem ends_addSelections {selections : List Selection}
    (h : ∀ s ∈ selections, s.Placed text) (d : Draft) (counts : ColumnId.Counts) :
    Ends (Located text) (fun _ => True) (addSelections ctx d counts selections) := by
  induction selections generalizing d counts with
  | nil => trivial
  | cons s selections ih =>
    obtain ⟨hs, hrest⟩ := List.forall_mem_cons.mp h
    exact (d.ends_addSelection counts hs).bind fun r _ _ => ih hrest r.1 r.2

theorem ends_readSelect (d : Draft) {clause : Group} (h : clause.Placed text) :
    Ends (Located text) (fun _ => True) (d.readSelect ctx clause) := by
  have hscalar (n : Node) : Ends (Located text) (fun _ => True) (d.readScalar ctx clause [n]) :=
    d.ends_readScalar h [n]
  have hread := SelectClause.placed_readNodes hscalar h.children SelectClause.placed_nothing
  refine (ends_addSelections hread.1 d {}).bind fun d' _ _ => ?_
  split
  next => trivial
  next e he => exact hread.2 e he

theorem ends_addHidden {fields : List HavingField} (h : ∀ f ∈ fields, f.place.Points text)
    (d : Draft) : Ends (Located text) (fun _ => True) (addHidden ctx d fields) := by
  induction fields generalizing d with
  | nil => trivial
  | cons f fields ih =>
    obtain ⟨hf, hfields⟩ := List.forall_mem_cons.mp h
    rw [addHidden]
    split
    · exact ih hfields d
    · exact (d.ends_addField hf _ _ _ _ _).bind fun d' _ _ => ih hfields d'

end Draft

private theorem mem_of_mem_splitWhen {α : Type} {p : α → Bool} {as part : List α} {a : α}
    (hpart : part ∈ splitWhen p as) (ha : a ∈ part) : a ∈ as := by
  induction as generalizing part with
  | nil => simp_all [splitWhen]
  | cons b as ih =>
    rw [splitWhen] at hpart
    split at hpart
    · rcases List.mem_cons.mp hpart with rfl | hpart
      · cases ha
      · exact List.mem_cons_of_mem b (ih hpart ha)
    · split at hpart
      next first parts heq =>
        rcases List.mem_cons.mp hpart with rfl | hpart
        · rcases List.mem_cons.mp ha with rfl | ha
          · exact List.mem_cons_self
          · exact List.mem_cons_of_mem b (ih (by simp [heq]) ha)
        · exact List.mem_cons_of_mem b (ih (by simp [heq, hpart]) ha)
      next =>
        cases List.mem_singleton.mp hpart
        cases List.mem_singleton.mp ha
        exact List.mem_cons_self

namespace Visual

theorem ends_readParam {table : Table} {function : Place} (hfunction : function.Points text)
    (params : SortedMap) {nodes : List Node} (h : ∀ n ∈ nodes, n.Placed text) :
    Ends (Located text) (fun _ => True) (readParam table function params nodes) := by
  unfold readParam
  split
  next key equals column rest =>
    have hkey := h key (by simp)
    have hequals := h equals (by simp)
    have hcolumn := h column (by simp)
    split
    next extra rest => exact (h extra (by simp)).place.located _
    next =>
      split
      · exact hkey.place.located _
      · split
        · exact hequals.place.located _
        · split
          · exact hcolumn.place.located _
          · dsimp only
            split
            · trivial
            · exact hcolumn.place.located _
  next node rest _ => exact (h node (by simp)).place.located _
  next => exact hfunction.located _

private theorem ends_readParams {table : Table} {function : Group} (h : function.Placed text) :
    Ends (Located text) (fun _ => True) (readParams table function) := by
  rw [readParams]
  split
  · trivial
  · refine Ends.foldlM trivial fun params part hpart _ => ends_readParam h.place params ?_
    intro n hn
    exact h.children n (mem_of_mem_splitWhen hpart hn)

theorem ends_read {clause : Group} (h : clause.Placed text) (table : Table) :
    Ends (Located text) (fun _ => True) (read clause table) := by
  have hchildren := h.children
  rw [read]
  split
  next => exact h.place.located _
  next first extra rest heq => exact (hchildren extra (by simp [heq])).place.located _
  next node heq =>
    have hnode := hchildren node (by simp [heq])
    split
    next g hg => exact (ends_readParams (hnode.function? hg)).bind fun _ _ _ => trivial
    next =>
      split
      · trivial
      · exact hnode.place.located _

theorem ends_addTo {clause : Group} (h : clause.Placed text) (table : Table) :
    Ends (Located text) (fun _ => True) (addTo clause table) :=
  (ends_read h table).bind fun _ _ _ => trivial

end Visual

end

end PipeQuery
