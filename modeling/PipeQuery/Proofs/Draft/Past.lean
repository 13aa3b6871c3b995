import Mathlib.Data.List.Forall2
import PipeQuery.Proofs.Clause.Order

/-!
The past of a draft: the clauses read so far, which only the check of their order looks at, and the
names from `having`, which only the columns at the end look at. Every reader treats drafts with
different pasts alike.
-/
namespace PipeQuery.Draft

def withPast (d : Draft) (consumed : List Clause) (having : List HavingField) : Draft :=
  { d with consumed := consumed, having := having }

section Frame
variable (ctx : Context) (d : Draft) (consumed : List Clause) (having : List HavingField)

private theorem noteColumn_withPast (name : String) (c : Column) :
    ((d.withPast consumed having).note name).addColumn c =
      ((d.note name).addColumn c).withPast consumed having := by
  by_cases h : d.added.contains name
  · simp only [note, withPast, h, if_true, addColumn]
  · simp only [note, withPast, h, Bool.false_eq_true, if_false, addColumn]

private theorem addField_withPast (place : Place) (id field name : String)
    (visible special : Bool) :
    (d.withPast consumed having).addField ctx place id field name visible special =
      (d.addField ctx place id field name visible special).map (·.withPast consumed having) := by
  have hexpr : (d.withPast consumed having).fieldExpr ctx place field =
    d.fieldExpr ctx place field := rfl
  rw [addField, addField, hexpr]
  cases d.fieldExpr ctx place field with
  | error e => rfl
  | ok e => exact congrArg Except.ok (noteColumn_withPast d consumed having field _)

private theorem addFields_withPast (place : Place) (counts : ColumnId.Counts)
    (fields : List String) :
    addFields ctx place (d.withPast consumed having) counts fields =
      (addFields ctx place d counts fields).map fun r => (r.1.withPast consumed having, r.2) := by
  induction fields generalizing d counts with
  | nil => rfl
  | cons field fields ih =>
    rw [addFields, addFields]
    obtain ⟨id, counts₁⟩ := ColumnId.next counts field
    simp only [addField_withPast]
    cases d.addField ctx place id field field true false with
    | error e => rfl
    | ok d₁ => exact ih d₁ counts₁

private theorem addSelection_withPast (counts : ColumnId.Counts) (s : Selection) :
    (d.withPast consumed having).addSelection ctx counts s =
      (d.addSelection ctx counts s).map fun r => (r.1.withPast consumed having, r.2) := by
  obtain ⟨chosen, name⟩ := s
  cases chosen with
  | field n =>
    simp only [addSelection]
    split
    · exact addFields_withPast ctx d consumed having n.place counts _
    · obtain ⟨id, counts₁⟩ := ColumnId.next counts name
      rw [addField_withPast]
      cases d.addField ctx n.place id n.unescaped name true false with
      | error e => rfl
      | ok d₁ => rfl
  | expression e =>
    have hcolumn := noteColumn_withPast d consumed having name
      (d.column (ColumnId.next counts name).1 name name e true false)
    exact congrArg (fun d => Except.ok (d, (ColumnId.next counts name).2)) hcolumn

private theorem addSelections_withPast (counts : ColumnId.Counts) (selections : List Selection) :
    addSelections ctx (d.withPast consumed having) counts selections =
      (addSelections ctx d counts selections).map (·.withPast consumed having) := by
  induction selections generalizing d counts with
  | nil => rfl
  | cons s selections ih =>
    rw [addSelections, addSelections, addSelection_withPast]
    cases d.addSelection ctx counts s with
    | error e => rfl
    | ok r => exact ih r.1 r.2

private theorem readSelect_withPast (clause : Group) :
    (d.withPast consumed having).readSelect ctx clause =
      (d.readSelect ctx clause).map (·.withPast consumed having) := by
  rw [readSelect, readSelect]
  have hscalar (n : Node) : (d.withPast consumed having).readScalar ctx clause [n] =
    d.readScalar ctx clause [n] := rfl
  simp only [hscalar]
  obtain ⟨selections, fault⟩ := SelectClause.read (fun n => d.readScalar ctx clause [n]) clause
  rw [addSelections_withPast]
  cases addSelections ctx d {} selections with
  | error e => rfl
  | ok d₁ =>
    cases fault with
    | none => rfl
    | some e => rfl

private theorem addSorts_withPast (keys : List (String × SortDirection)) :
    (d.withPast consumed having).addSorts keys = (d.addSorts keys).withPast consumed having := by
  induction keys generalizing d with
  | nil => rfl
  | cons key keys ih => exact ih (d.addSort key.1 key.2)

private theorem readPlain_withPast (clause : Clause) (g : Group) :
    (d.withPast consumed having).readPlain ctx clause g =
      (d.readPlain ctx clause g).map (·.withPast consumed having) := by
  cases clause with
  | source =>
    simp only [readPlain]
    cases SourceClause.read ctx.services g with
    | error e => rfl
    | ok doc => rfl
  | eval =>
    simp only [readPlain, readEval]
    cases EvalClause.read g with
    | error e => rfl
    | ok r =>
      have hscalar : (d.withPast consumed having).readScalar ctx g r.2 =
        d.readScalar ctx g r.2 := rfl
      simp only [bind, Except.bind, hscalar]
      cases d.readScalar ctx g r.2 with
      | error e => rfl
      | ok e => rfl
  | window =>
    simp only [readPlain]
    cases WindowClause.read g with
    | error e => rfl
    | ok window => rfl
  | sort =>
    simp only [readPlain]
    cases SortClause.read g with
    | error e => rfl
    | ok keys => exact congrArg Except.ok (addSorts_withPast d consumed having keys)
  | group =>
    simp only [readPlain]
    cases GroupClause.read g with
    | error e => rfl
    | ok fields => rfl
  | select => exact readSelect_withPast ctx d consumed having g
  | limit =>
    simp only [readPlain]
    cases LimitClause.read g with
    | error e => rfl
    | ok limits => rfl
  | present =>
    simp only [readPlain]
    have htable : (d.withPast consumed having).table = d.table := rfl
    rw [htable]
    cases ctx.services.readVisual g d.table with
    | error e => rfl
    | ok table => rfl
  | restrict | filter | having => rfl

private theorem readAlone_withPast (c : ClauseGroup) (extensions : List Extension) :
    (d.withPast consumed having).readAlone ctx c extensions =
      (d.readAlone ctx c extensions).map (·.withPast consumed having) := by
  rw [readAlone, readAlone, readPlain_withPast]
  cases d.readPlain ctx c.clause c.group with
  | error e => rfl
  | ok d₁ =>
    cases extensions with
    | nil => rfl
    | cons e es => rfl

private theorem addOrigin_withPast (id field : String) :
    (d.withPast consumed having).addOrigin id field =
      (d.addOrigin id field).withPast consumed having := by
  have hadded : (d.withPast consumed having).added = d.added := rfl
  rw [addOrigin, addOrigin, hadded]
  split
  · rfl
  · exact noteColumn_withPast d consumed having id _

private theorem addOrigins_withPast :
    (d.withPast consumed having).addOrigins = d.addOrigins.withPast consumed having := by
  have hdepth : (d.withPast consumed having).depth = d.depth := rfl
  rw [addOrigins, addOrigins, hdepth]
  split
  · simp only [originColumns, List.foldl_cons, List.foldl_nil, addOrigin_withPast]
  · rfl

private theorem addHidden_withPast (fields : List HavingField) :
    addHidden ctx (d.withPast consumed having) fields =
      (addHidden ctx d fields).map (·.withPast consumed having) := by
  induction fields generalizing d with
  | nil => rfl
  | cons f fields ih =>
    have hadded : (d.withPast consumed having).added = d.added := rfl
    rw [addHidden, addHidden, hadded]
    split
    · exact ih d
    · rw [addField_withPast]
      cases d.addField ctx f.place (hiddenId f.name) f.name f.name false true with
      | error e => rfl
      | ok d₁ => exact ih d₁

end Frame

/-- The drafts differ at most in the order of the clauses before, and in the places of the names
from `having`. -/
def Alike (d d' : Draft) : Prop :=
  ∃ consumed having, d.consumed.Perm consumed ∧
    d.having.map (·.name) = having.map (·.name) ∧ d' = d.withPast consumed having

namespace Alike
variable {d₁ d₂ d₃ : Draft}

theorem refl (d : Draft) : Alike d d := ⟨d.consumed, d.having, .refl _, rfl, rfl⟩

theorem trans (h : Alike d₁ d₂) (h' : Alike d₂ d₃) : Alike d₁ d₃ := by
  obtain ⟨consumed, having, hperm, hnames, rfl⟩ := h
  obtain ⟨consumed', having', hperm', hnames', rfl⟩ := h'
  exact ⟨consumed', having', hperm.trans hperm', hnames.trans hnames', rfl⟩

end Alike

section
variable {ctx : Context} {d d' d₁ : Draft}

/-- A clause without a condition leaves the past alone. -/
theorem past_readAlone {c : ClauseGroup} {extensions : List Extension}
    (h : d.readAlone ctx c extensions = .ok d₁) : d₁ = d₁.withPast d.consumed d.having := by
  -- The draft is the one with its own past, so the frame says how its past ends.
  have hframe := readAlone_withPast ctx d d.consumed d.having c extensions
  have hd : d.withPast d.consumed d.having = d := rfl
  rw [hd, h] at hframe
  exact Except.ok.inj hframe

/-- No clause looks at the clauses before it. -/
theorem readClause_consumed (ctx : Context) (d : Draft) (consumed : List Clause) (c : ClauseGroup)
    (extensions : List Extension) :
    readClause ctx { d with consumed := consumed } c extensions =
      (d.readClause ctx c extensions).map ({ · with consumed := consumed }) := by
  obtain ⟨clause, place, g⟩ := c
  cases clause with
  | restrict | filter =>
    simp only [readClause]
    cases readCondition ctx false g extensions with
    | error e => rfl
    | ok r => rfl
  | having =>
    simp only [readClause]
    cases readCondition ctx true g extensions with
    | error e => rfl
    | ok r => rfl
  | _ =>
    refine (readAlone_withPast ctx d consumed d.having _ extensions).trans ?_
    simp only [readClause]
    cases h : d.readAlone ctx _ extensions with
    | error e => rfl
    | ok d₁ =>
      rw [past_readAlone h]
      rfl

private theorem alike_readAlone {c : ClauseGroup} {extensions : List Extension} (hd : Alike d d')
    (h : d.readAlone ctx c extensions = .ok d₁) :
    ∃ d₁', d'.readAlone ctx c extensions = .ok d₁' ∧ Alike d₁ d₁' := by
  obtain ⟨consumed, having, hperm, hnames, rfl⟩ := hd
  refine ⟨d₁.withPast consumed having, ?_, consumed, having, ?_, ?_, rfl⟩
  · rw [readAlone_withPast, h]
    rfl
  · rw [past_readAlone h]
    exact hperm
  · rw [past_readAlone h]
    exact hnames

/-- Clauses are read alike after alike pasts. -/
theorem alike_readClause {c : ClauseGroup} {extensions : List Extension} (hd : Alike d d')
    (h : d.readClause ctx c extensions = .ok d₁) :
    ∃ d₁', d'.readClause ctx c extensions = .ok d₁' ∧ Alike d₁ d₁' := by
  obtain ⟨clause, place, g⟩ := c
  cases clause with
  | restrict =>
    obtain ⟨⟨op, fields⟩, hop, hd₁⟩ := bind_eq_ok.mp h
    obtain ⟨consumed, having, hperm, hnames, rfl⟩ := hd
    cases hd₁
    exact ⟨_, bind_eq_ok.mpr ⟨(op, fields), hop, rfl⟩, consumed, having, hperm, hnames, rfl⟩
  | filter =>
    obtain ⟨⟨op, fields⟩, hop, hd₁⟩ := bind_eq_ok.mp h
    obtain ⟨consumed, having, hperm, hnames, rfl⟩ := hd
    cases hd₁
    exact ⟨_, bind_eq_ok.mpr ⟨(op, fields), hop, rfl⟩, consumed, having, hperm, hnames, rfl⟩
  | having =>
    obtain ⟨⟨op, fields⟩, hop, hd₁⟩ := bind_eq_ok.mp h
    obtain ⟨consumed, having, hperm, hnames, rfl⟩ := hd
    cases hd₁
    refine ⟨_, bind_eq_ok.mpr ⟨(op, fields), hop, rfl⟩, consumed, having ++ fields, hperm, ?_, rfl⟩
    simp only [List.map_append, hnames]
  | _ => exact alike_readAlone hd h

/-- The second entry is read whenever the first one is, and changes a draft alike. -/
def ReadAlike (ctx : Context) (e e' : Node × List Extension) : Prop :=
  ∀ c, e.1.clauseGroup = .ok c → ∃ c', e'.1.clauseGroup = .ok c' ∧ c'.clause = c.clause ∧
    ∀ d d₁, readClause ctx d c e.2 = .ok d₁ →
      ∃ d₁', readClause ctx d c' e'.2 = .ok d₁' ∧ Alike d₁ d₁'

theorem ReadAlike.refl (e : Node × List Extension) : ReadAlike ctx e e :=
  fun c hc => ⟨c, hc, rfl, fun _ d₁ h => ⟨d₁, h, .refl d₁⟩⟩

private theorem alike_readEntry {e e' : Node × List Extension} (he : ReadAlike ctx e e')
    (hd : Alike d d') (h : d.readEntry ctx e = .ok d₁) :
    ∃ d₁', d'.readEntry ctx e' = .ok d₁' ∧ Alike d₁ d₁' := by
  obtain ⟨c, d₂, hc, horder, hread, rfl⟩ := readEntry_eq_ok_iff.mp h
  obtain ⟨c', hc', hclause, hreads⟩ := he c hc
  obtain ⟨d₂', hread', hd₂⟩ := hreads d d₂ hread
  obtain ⟨d₃, hread'', hd₃⟩ := alike_readClause hd hread'
  obtain ⟨consumed, having, hperm, hnames, rfl⟩ := hd₂.trans hd₃
  have horder' : Clause.checkOrder c'.place c'.clause d'.consumed = .ok () := by
    obtain ⟨consumed', -, hperm', -, rfl⟩ := hd
    rw [hclause]
    exact (Clause.checkOrder_perm c.place c'.place c.clause hperm').mp horder
  refine ⟨_, readEntry_eq_ok_iff.mpr ⟨c', _, hc', horder', hread'', rfl⟩, ?_⟩
  exact ⟨consumed ++ [c'.clause], having, hclause ▸ hperm.append_right _, hnames, rfl⟩

/-- A walk over entries that are read alike, after alike pasts. -/
theorem alike_readEntries {es es' : List (Node × List Extension)}
    (hes : List.Forall₂ (ReadAlike ctx) es es') (hd : Alike d d')
    (h : readEntries ctx d es = .ok d₁) :
    ∃ d₁', readEntries ctx d' es' = .ok d₁' ∧ Alike d₁ d₁' := by
  induction hes generalizing d d' with
  | nil =>
    cases h
    exact ⟨d', rfl, hd⟩
  | cons he _ ih =>
    obtain ⟨d₂, hentry, hrest⟩ := bind_eq_ok.mp h
    obtain ⟨d₂', hentry', hd₂⟩ := alike_readEntry he hd hentry
    obtain ⟨d₃, hrest', hd₃⟩ := ih hd₂ hrest
    exact ⟨d₃, bind_eq_ok.mpr ⟨d₂', hentry', hrest'⟩, hd₃⟩

theorem alike_readEntries_self {es : List (Node × List Extension)} (hd : Alike d d')
    (h : readEntries ctx d es = .ok d₁) :
    ∃ d₁', readEntries ctx d' es = .ok d₁' ∧ Alike d₁ d₁' :=
  alike_readEntries (List.forall₂_same.mpr fun e _ => ReadAlike.refl e) hd h

/-- The place of a field is for its faults only. -/
theorem addField_place {place place' : Place} {id field name : String} {visible special : Bool}
    (h : d.addField ctx place id field name visible special = .ok d₁) :
    d.addField ctx place' id field name visible special = .ok d₁ := by
  obtain ⟨e, he, hd⟩ := bind_eq_ok.mp h
  refine bind_eq_ok.mpr ⟨e, ?_, hd⟩
  rw [fieldExpr] at he ⊢
  split at he
  · exact he
  · split at he
    · exact he
    · cases he

private theorem addHidden_names {fields fields' : List HavingField}
    (hnames : fields.map (·.name) = fields'.map (·.name))
    (h : addHidden ctx d fields = .ok d₁) : addHidden ctx d fields' = .ok d₁ := by
  induction fields generalizing d fields' with
  | nil =>
    cases fields' with
    | nil => exact h
    | cons f fields' => cases hnames
  | cons f fields ih =>
    cases fields' with
    | nil => cases hnames
    | cons f' fields' =>
      have hname : f.name = f'.name := (List.cons.inj hnames).1
      have hrest := (List.cons.inj hnames).2
      rw [addHidden] at h ⊢
      rw [← hname]
      split at h
      next hadded =>
        rw [if_pos hadded]
        exact ih hrest h
      next hadded =>
        rw [if_neg hadded]
        obtain ⟨d₂, hfield, hhidden⟩ := bind_eq_ok.mp h
        exact bind_eq_ok.mpr ⟨d₂, addField_place hfield, ih hrest hhidden⟩

/-- Alike drafts have one request. -/
theorem alike_finish {request : SearchRequest} (hd : Alike d d')
    (h : d.finish ctx = .ok request) : d'.finish ctx = .ok request := by
  obtain ⟨consumed, having, -, hnames, rfl⟩ := hd
  have hsource : (d.withPast consumed having).source = d.source := rfl
  have hhaving : (d.withPast consumed having).having = having := rfl
  rw [finish] at h ⊢
  rw [hsource, hhaving]
  cases hs : d.source with
  | none =>
    rw [hs] at h
    cases h
  | some source =>
    rw [hs] at h
    obtain ⟨d₂, hhidden, hrequest⟩ := bind_eq_ok.mp h
    rw [addOrigins_withPast, addHidden_withPast, addHidden_names hnames hhidden]
    exact hrequest

end

end PipeQuery.Draft
