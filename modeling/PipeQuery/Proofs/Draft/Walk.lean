import PipeQuery.Compile
import PipeQuery.Proofs.Result

/-!
The walk over the clauses of a query: what reading one clause changes in a draft and what it leaves
alone, and how a whole walk is put together from such steps.
-/
namespace PipeQuery

namespace Draft

/-- The second draft differs from the first at most in its columns and the names that have one. -/
def OnlyColumns (d d' : Draft) : Prop :=
  ∃ columns added, d' = { d with table := { d.table with columns := columns }, added := added }

namespace OnlyColumns

theorem refl (d : Draft) : OnlyColumns d d := ⟨d.table.columns, d.added, rfl⟩

theorem trans {d₁ d₂ d₃ : Draft} (h : OnlyColumns d₁ d₂) (h' : OnlyColumns d₂ d₃) :
    OnlyColumns d₁ d₃ := by
  obtain ⟨columns, added, rfl⟩ := h
  obtain ⟨columns', added', rfl⟩ := h'
  exact ⟨columns', added', rfl⟩

theorem noteColumn (d : Draft) (name : String) (c : Column) :
    OnlyColumns d ((d.note name).addColumn c) := by
  rw [note]
  split
  · exact ⟨_, _, rfl⟩
  · exact ⟨_, _, rfl⟩

end OnlyColumns

section
variable {ctx : Context} {d d' : Draft}

private theorem onlyColumns_addField {place : Place} {id field name : String}
    {visible special : Bool} (h : d.addField ctx place id field name visible special = .ok d') :
    OnlyColumns d d' := by
  obtain ⟨e, -, he⟩ := bind_eq_ok.mp h
  cases he
  exact .noteColumn d field _

private theorem onlyColumns_addFields {place : Place} {fields : List String}
    {counts : ColumnId.Counts} {r : Draft × ColumnId.Counts}
    (h : addFields ctx place d counts fields = .ok r) : OnlyColumns d r.1 := by
  induction fields generalizing d counts with
  | nil =>
    cases h
    exact .refl d
  | cons field fields ih =>
    obtain ⟨d₁, h₁, hrest⟩ := bind_eq_ok.mp h
    exact (onlyColumns_addField h₁).trans (ih hrest)

private theorem onlyColumns_addSelection {counts : ColumnId.Counts} {s : Selection}
    {r : Draft × ColumnId.Counts} (h : d.addSelection ctx counts s = .ok r) :
    OnlyColumns d r.1 := by
  rw [addSelection] at h
  split at h
  next n _ =>
    split at h
    · exact onlyColumns_addFields h
    · obtain ⟨d₁, h₁, hr⟩ := bind_eq_ok.mp h
      cases hr
      exact onlyColumns_addField h₁
  next e _ =>
    cases h
    exact .noteColumn d s.name _

private theorem onlyColumns_addSelections {selections : List Selection} {counts : ColumnId.Counts}
    (h : addSelections ctx d counts selections = .ok d') : OnlyColumns d d' := by
  induction selections generalizing d counts with
  | nil =>
    cases h
    exact .refl _
  | cons s rest ih =>
    obtain ⟨⟨d₁, counts₁⟩, h₁, hrest⟩ := bind_eq_ok.mp h
    exact (onlyColumns_addSelection h₁).trans (ih hrest)

theorem onlyColumns_readSelect {clause : Group} (h : d.readSelect ctx clause = .ok d') :
    OnlyColumns d d' := by
  obtain ⟨d₁, h₁, hfault⟩ := bind_eq_ok.mp h
  split at hfault
  · cases hfault
    exact onlyColumns_addSelections h₁
  · cases hfault

private theorem onlyColumns_addOrigin (d : Draft) (id field : String) :
    OnlyColumns d (d.addOrigin id field) := by
  rw [addOrigin]
  split
  · exact .refl d
  · exact .noteColumn d id _

theorem onlyColumns_addOrigins (d : Draft) : OnlyColumns d d.addOrigins := by
  rw [addOrigins]
  split
  · exact (onlyColumns_addOrigin d _ _).trans (onlyColumns_addOrigin _ _ _)
  · exact .refl d

theorem onlyColumns_addHidden {fields : List HavingField} (h : addHidden ctx d fields = .ok d') :
    OnlyColumns d d' := by
  induction fields generalizing d with
  | nil =>
    cases h
    exact .refl _
  | cons f fields ih =>
    rw [addHidden] at h
    split at h
    · exact ih h
    · obtain ⟨d₁, hfield, hrest⟩ := bind_eq_ok.mp h
      exact (onlyColumns_addField hfield).trans (ih hrest)

private theorem addSorts_frame (keys : List (String × SortDirection)) (d : Draft) :
    ∃ sorts, d.addSorts keys = { d with sorts := sorts } := by
  induction keys generalizing d with
  | nil => exact ⟨d.sorts, rfl⟩
  | cons key keys ih =>
    obtain ⟨sorts, hs⟩ := ih (d.addSort key.1 key.2)
    exact ⟨sorts, hs⟩

/-- What reading a clause does to the parts of a draft that the walk itself looks at. -/
structure Step (ctx : Context) (c : ClauseGroup) (d d' : Draft) : Prop where
  consumed : d'.consumed = d.consumed
  source : if c.clause = .source then
      ∃ doc, SourceClause.read ctx.services c.group = .ok doc ∧ d'.source = some doc
    else d'.source = d.source
  columns : if c.clause = .select then d.readSelect ctx c.group = .ok d'
    else d'.table.columns = d.table.columns
  having : ∀ f ∈ d'.having, f ∈ d.having ∨ f.place = c.group.place

/-- Reading any clause but `from`, `having` and `select` leaves all of these parts alone. -/
theorem Step.of_eq {c : ClauseGroup} (hc : c.clause ≠ .source) (hselect : c.clause ≠ .select)
    (hconsumed : d'.consumed = d.consumed) (hsource : d'.source = d.source)
    (hcolumns : d'.table.columns = d.table.columns) (hhaving : d'.having = d.having) :
    Step ctx c d d' := by
  refine ⟨hconsumed, by rw [if_neg hc, hsource], by rw [if_neg hselect, hcolumns], ?_⟩
  intro f hf
  exact .inl (hhaving ▸ hf)

private theorem Step.of_readSelect {c : ClauseGroup} (hc : c.clause = .select)
    (h : d.readSelect ctx c.group = .ok d') : Step ctx c d d' := by
  obtain ⟨columns, added, hd⟩ := onlyColumns_readSelect h
  refine ⟨by rw [hd], ?_, by rwa [if_pos hc], ?_⟩
  · rw [if_neg (by simp [hc]), hd]
  · intro f hf
    rw [hd] at hf
    exact .inl hf

private theorem step_readPlain {c : ClauseGroup} (h : d.readPlain ctx c.clause c.group = .ok d') :
    Step ctx c d d' := by
  obtain ⟨clause, place, g⟩ := c
  cases clause with
  | source =>
    obtain ⟨doc, hdoc, hd⟩ := bind_eq_ok.mp h
    cases hd
    exact ⟨rfl, ⟨doc, hdoc, rfl⟩, rfl, fun f hf => .inl hf⟩
  | eval =>
    obtain ⟨⟨name, nodes⟩, -, hrest⟩ := bind_eq_ok.mp h
    obtain ⟨e, -, hd⟩ := bind_eq_ok.mp hrest
    cases hd
    exact .of_eq nofun nofun rfl rfl rfl rfl
  | window =>
    obtain ⟨window, -, hd⟩ := bind_eq_ok.mp h
    cases hd
    exact .of_eq nofun nofun rfl rfl rfl rfl
  | sort =>
    obtain ⟨keys, -, hd⟩ := bind_eq_ok.mp h
    cases hd
    obtain ⟨sorts, hs⟩ := addSorts_frame keys d
    rw [hs]
    exact .of_eq nofun nofun rfl rfl rfl rfl
  | group =>
    obtain ⟨fields, -, hd⟩ := bind_eq_ok.mp h
    cases hd
    exact .of_eq nofun nofun rfl rfl rfl rfl
  | select => exact .of_readSelect rfl h
  | limit =>
    obtain ⟨limits, -, hd⟩ := bind_eq_ok.mp h
    cases hd
    exact .of_eq nofun nofun rfl rfl rfl rfl
  | present =>
    obtain ⟨table, -, hd⟩ := bind_eq_ok.mp h
    cases hd
    exact .of_eq nofun nofun rfl rfl rfl rfl
  | restrict | filter | having =>
    cases h
    exact .of_eq nofun nofun rfl rfl rfl rfl

private theorem step_readAlone {c : ClauseGroup} {extensions : List Extension}
    (h : d.readAlone ctx c extensions = .ok d') : Step ctx c d d' := by
  obtain ⟨d₁, h₁, hrest⟩ := bind_eq_ok.mp h
  split at hrest
  · cases hrest
    exact step_readPlain (Result.ofExcept_eq_ok.mp h₁)
  · cases hrest

private theorem place_of_readCondition {note : Bool} {clause : Group} {extensions : List Extension}
    {op : Operator} {fields : List HavingField}
    (h : readCondition ctx note clause extensions = .ok (op, fields)) :
    ∀ f ∈ fields, f.place = clause.place := by
  rw [readCondition] at h
  split at h
  next names _ =>
    cases h
    intro f hf
    obtain ⟨name, -, rfl⟩ := List.mem_map.mp hf
    rfl
  next => cases h

theorem step_readClause {c : ClauseGroup} {extensions : List Extension}
    (h : d.readClause ctx c extensions = .ok d') : Step ctx c d d' := by
  rw [readClause] at h
  split at h
  next hc =>
    obtain ⟨⟨op, fields⟩, -, hd⟩ := bind_eq_ok.mp h
    cases hd
    exact .of_eq (by simp [hc]) (by simp [hc]) rfl rfl rfl rfl
  next hc =>
    obtain ⟨⟨op, fields⟩, -, hd⟩ := bind_eq_ok.mp h
    cases hd
    exact .of_eq (by simp [hc]) (by simp [hc]) rfl rfl rfl rfl
  next hc =>
    obtain ⟨⟨op, fields⟩, hop, hd⟩ := bind_eq_ok.mp h
    cases hd
    refine ⟨rfl, by simp [hc], by simp [hc], ?_⟩
    intro f hf
    rcases List.mem_append.mp hf with hf | hf
    · exact .inl hf
    · exact .inr (place_of_readCondition hop f hf)
  next => exact step_readAlone h

/-- A step of the walk: a clause that may stand here is read, and is then one of those before. -/
theorem readEntry_eq_ok_iff {entry : Node × List Extension} :
    d.readEntry ctx entry = .ok d' ↔ ∃ c d₁, entry.1.clauseGroup = .ok c ∧
      Clause.checkOrder c.place c.clause d.consumed = .ok () ∧
      d.readClause ctx c entry.2 = .ok d₁ ∧
      d' = { d₁ with consumed := d₁.consumed ++ [c.clause] } := by
  constructor
  · intro h
    obtain ⟨c, hc, hrest⟩ := bind_eq_ok.mp h
    obtain ⟨_, horder, hrest⟩ := bind_eq_ok.mp hrest
    obtain ⟨d₁, hread, hd⟩ := bind_eq_ok.mp hrest
    cases hd
    exact ⟨c, d₁, Result.ofExcept_eq_ok.mp hc, Result.ofExcept_eq_ok.mp horder, hread, rfl⟩
  · rintro ⟨c, d₁, hc, horder, hread, rfl⟩
    refine bind_eq_ok.mpr ⟨c, Result.ofExcept_eq_ok.mpr hc, ?_⟩
    refine bind_eq_ok.mpr ⟨(), Result.ofExcept_eq_ok.mpr horder, ?_⟩
    exact bind_eq_ok.mpr ⟨d₁, hread, rfl⟩

/-- What a step of the walk changes. -/
theorem readEntry_eq_ok {entry : Node × List Extension} (h : d.readEntry ctx entry = .ok d') :
    ∃ c d₁, entry.1.clauseGroup = .ok c ∧
      Clause.checkOrder c.place c.clause d.consumed = .ok () ∧ Step ctx c d d₁ ∧
      d' = { d₁ with consumed := d.consumed ++ [c.clause] } := by
  obtain ⟨c, d₁, hc, horder, hread, rfl⟩ := readEntry_eq_ok_iff.mp h
  have hstep := step_readClause hread
  exact ⟨c, d₁, hc, horder, hstep, by rw [hstep.consumed]⟩

theorem readEntries_append (d : Draft) (es es' : List (Node × List Extension)) :
    readEntries ctx d (es ++ es') = readEntries ctx d es >>= fun d => readEntries ctx d es' := by
  induction es generalizing d with
  | nil => rfl
  | cons e es ih => simp only [List.cons_append, readEntries, bind_assoc, ih]

theorem ofRoot_eq_ok_iff {root : Group} :
    ofRoot ctx root = .ok d ↔ (attachExtensions root.children).1 = [] ∧
      readEntries ctx {} (attachExtensions root.children).2 = .ok d := by
  rw [ofRoot]
  obtain ⟨leading, entries⟩ := attachExtensions root.children
  cases leading with
  | nil => simp
  | cons e es => simp

end

end Draft

/-- The nodes that take extensions are those that are none. -/
theorem entries_attachExtensions (ns : List Node) :
    (attachExtensions ns).2.map (·.1) = ns.filter (·.extension?.isNone) := by
  induction ns with
  | nil => rfl
  | cons n ns ih =>
    rw [attachExtensions]
    cases he : n.extension? with
    | some e => simp [he, ih]
    | none => simp [he, ih]

/-- The table of a query that compiles, by what is shown of it. -/
theorem exists_table_of_map {ctx : Context} {text : String} {α : Type} {f : Table → α} {a : α}
    (h : ((compile ctx text).toOption.bind (·.table?)).map f = some a) :
    ∃ request table, compile ctx text = .ok request ∧ request.table? = some table ∧
      f table = a := by
  obtain ⟨table, hbind, hf⟩ := Option.map_eq_some_iff.mp h
  obtain ⟨request, hrequest, htable⟩ := Option.bind_eq_some_iff.mp hbind
  exact ⟨request, table, eq_ok_of_toOption hrequest, htable, hf⟩

/-- One data source without fields. The sample queries are on it. -/
def Catalog.sample : Catalog := { dataSources := [⟨"View", "u", "a", []⟩] }

def Context.sample : Context := ⟨.ofCatalog .sample, {}, ⟨0, 0⟩⟩

end PipeQuery
