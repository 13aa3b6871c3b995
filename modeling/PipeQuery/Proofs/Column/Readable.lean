import PipeQuery.Proofs.Column.Asked

/-!
Names from `having` can be read in the result. The columns of a table are those that are selected,
those that lead back to the event, and hidden ones for the names from `having` that have none of
these. Every such name has a column that is called so or that has its expression.
-/
namespace PipeQuery

namespace Draft

def originColumn (id field : String) : Column where
  id := id
  name := id
  expression := (Expr.field field).render
  visible := false
  special := true

def origins : List Column := originColumns.map fun x => originColumn x.1 x.2

def selectedFields (ctx : Context) (d : Draft) (s : Selection) : List String :=
  match s.chosen with
  | .field n => if isWildcard n s.name then d.expand ctx n else [n.unescaped]
  | .expression _ => []

/-- The name can be read in the column, which is called so or has the expression that the name stands
for. -/
def ReadIn (ctx : Context) (d : Draft) (name : String) (c : Column) : Prop :=
  c.name = name ∨ ∃ e, (∃ place, d.fieldExpr ctx place name = .ok e) ∧ c.expression = e.render

section
variable {ctx : Context} {d d' : Draft}

private theorem key_of_mem_selectedFields {s : Selection} {field : String}
    (h : field ∈ d.selectedFields ctx s) : field ∈ (d.asked ctx s).map (·.key) := by
  rw [selectedFields] at h
  split at h
  next n hn =>
    simp only [asked, hn]
    split at h
    next hw =>
      rw [if_pos hw, List.map_map]
      exact List.mem_map.mpr ⟨field, h, rfl⟩
    next hw =>
      rw [if_neg hw]
      exact h
  next => cases h

/-- A selection asks for a column that is called like its key, or that has the expression of it. -/
theorem readIn_of_asked {s : Selection} {a : Asked} {c : Column} {shown : Bool}
    (ha : a ∈ d.asked ctx s) (hc : d.Answers shown a c) : d.ReadIn ctx a.key c := by
  obtain ⟨id, e, he, rfl⟩ := hc
  rw [asked] at ha
  split at ha
  next n hn =>
    split at ha
    · obtain ⟨field, -, rfl⟩ := List.mem_map.mp ha
      exact .inl rfl
    · cases List.mem_singleton.mp ha
      exact .inr ⟨e, ⟨n.place, he⟩, rfl⟩
  next =>
    cases List.mem_singleton.mp ha
    exact .inl rfl

private theorem columns_addOrigin (d : Draft) (id field : String) :
    ∃ cs, cs.Sublist [originColumn id field] ∧
      (d.addOrigin id field).table.columns = d.table.columns ++ cs ∧
      ∀ n, n ∈ (d.addOrigin id field).added ↔ n ∈ d.added ∨ ∃ c ∈ cs, c.name = n := by
  rw [addOrigin]
  split
  · exact ⟨[], List.nil_sublist _, by simp, by simp⟩
  · refine ⟨[originColumn id field], .refl _, columns_noteColumn d id _, ?_⟩
    intro n
    rw [mem_added_noteColumn, or_comm]
    simp [originColumn, eq_comm]

/-- Some of the columns that lead back to the event are added, and their names are noted. -/
theorem columns_addOrigins (d : Draft) :
    ∃ cs, cs.Sublist origins ∧ d.addOrigins.table.columns = d.table.columns ++ cs ∧
      ∀ n, n ∈ d.addOrigins.added ↔ n ∈ d.added ∨ ∃ c ∈ cs, c.name = n := by
  rw [addOrigins]
  split
  · obtain ⟨cs, hsub, hcolumns, hadded⟩ := columns_addOrigin d "__stream_id__" "StreamId"
    obtain ⟨cs', hsub', hcolumns', hadded'⟩ :=
      columns_addOrigin (d.addOrigin "__stream_id__" "StreamId") "__event_id__" "EventId"
    refine ⟨cs ++ cs', hsub.append hsub', ?_, ?_⟩
    · rw [← List.append_assoc, ← hcolumns]
      exact hcolumns'
    · intro n
      refine (hadded' n).trans ?_
      rw [hadded, or_assoc]
      simp only [List.mem_append, or_and_right, exists_or]
  · exact ⟨[], List.nil_sublist _, by simp, by simp⟩

/-- What a query has selected by the end of the walk: the columns that its `select` asks for, with
the source, the named expressions, the order and the groups of the whole query. -/
theorem selected_ofRoot {root g : Group} (h : ofRoot ctx root = .ok d)
    (hg : g.toNode ∈ root.children) (hselect : g.Starts .select) :
    List.Forall₂ (d.Answers true) ((d.selections ctx g).flatMap (d.asked ctx)) d.table.columns ∧
      ∀ n, n ∈ d.added ↔ n ∈ ((d.selections ctx g).flatMap (d.asked ctx)).map (·.key) := by
  obtain ⟨extensions, hentry⟩ := exists_entry hg hselect
  obtain ⟨d₀, d₁, turn⟩ := exists_turn h hentry hselect
  obtain ⟨place, hclause⟩ := turn.reads
  have hadds := adds_readSelect (readAlone_eq_ok_iff.mp hclause).1
  -- No clause that writes one of these parts may come after `select`.
  have hevals := turn.part_found owns_evals (by decide) (by decide)
  have hsource := turn.part_found owns_source (by decide) (by decide)
  have hsorts := turn.part_found owns_sorts (by decide) (by decide)
  have hgroups := turn.part_found owns_groups (by decide) (by decide)
  obtain ⟨hasked, hanswers⟩ := answers_congr ctx hevals hsource hsorts hgroups
  obtain ⟨columns, hcolumns, hforall⟩ := hadds.columns
  have hnone : d₀.table.columns = [] := turn.part_before owns_columns (by decide)
  have hfresh : d₀.added = [] := turn.part_before owns_added (by decide)
  rw [selections_congr hevals, hasked, hanswers]
  constructor
  · have hfinal : d.table.columns = columns := by
      rw [turn.part_after owns_columns (by decide), hcolumns, hnone, List.nil_append]
    rw [hfinal]
    exact hforall
  · intro n
    rw [turn.part_after owns_added (by decide), hadds.added, hfresh]
    simp

/-- The names from `having` are those that the condition of the clause refers to. -/
theorem having_ofRoot {root g : Group} {extensions : List Extension} (h : ofRoot ctx root = .ok d)
    (hentry : (g.toNode, extensions) ∈ (attachExtensions root.children).2)
    (hhaving : g.Starts .having) : ∃ op, readCondition ctx true g extensions = .ok (op, d.having) := by
  obtain ⟨d₀, d₁, turn⟩ := exists_turn h hentry hhaving
  obtain ⟨place, hclause⟩ := turn.reads
  obtain ⟨⟨op, fields⟩, hop, hd₁⟩ := bind_eq_ok.mp hclause
  cases hd₁
  have hnone : d₀.having = [] := turn.part_before owns_having (by decide)
  have hfinal : d.having = d₀.having ++ fields := turn.part_after owns_having (by decide)
  rw [hfinal, hnone, List.nil_append]
  exact ⟨op, hop⟩

/-- Every name that is noted can be read in a selected column. -/
theorem readIn_of_mem_added {root : Group} (h : ofRoot ctx root = .ok d) {n : String}
    (hn : n ∈ d.added) : ∃ c ∈ d.table.columns, d.ReadIn ctx n c := by
  by_cases hselect : ∃ g : Group, g.toNode ∈ root.children ∧ g.Starts .select
  · obtain ⟨g, hg, hselect⟩ := hselect
    obtain ⟨hanswers, hadded⟩ := selected_ofRoot h hg hselect
    obtain ⟨a, ha, rfl⟩ := List.mem_map.mp ((hadded n).mp hn)
    obtain ⟨s, -, hs⟩ := List.mem_flatMap.mp ha
    obtain ⟨c, hc, hac⟩ := (exists_of_answers hanswers).1 a ha
    exact ⟨c, hc, readIn_of_asked hs hac⟩
  · have hnone : d.added = [] :=
      owns_added.of_noClause h fun g hg hstarts => hselect ⟨g, hg, hstarts⟩
    rw [hnone] at hn
    cases hn

/-- The columns of a finished table: those that are selected, some of those that lead back to the
event, and hidden ones for names from `having`. -/
structure Layout (ctx : Context) (root : Group) (d : Draft) (selected back hidden : List Column) :
    Prop where
  asked : ∀ g : Group, g.toNode ∈ root.children → g.Starts .select →
    List.Forall₂ (d.Answers true) ((d.selections ctx g).flatMap (d.asked ctx)) selected
  unasked : (∀ g : Group, g.toNode ∈ root.children → ¬ g.Starts .select) → selected = []
  shown : ∀ c ∈ selected, c.visible = true ∧ c.special = false
  back : back.Sublist origins
  hidden : ∃ hs : List HavingField, hs.Sublist d.having ∧
    List.Forall₂ (d.Answers false) (hs.map (d.askedBy ctx)) hidden

theorem shown_ofRoot {root : Group} (h : ofRoot ctx root = .ok d) :
    ∀ c ∈ d.table.columns, c.visible = true ∧ c.special = false := by
  intro c hc
  by_cases hselect : ∃ g : Group, g.toNode ∈ root.children ∧ g.Starts .select
  · obtain ⟨g, hg, hselect⟩ := hselect
    obtain ⟨a, -, hac⟩ := (exists_of_answers (selected_ofRoot h hg hselect).1).2 c hc
    exact hac.flags
  · have hnone : d.table.columns = [] :=
      owns_columns.of_noClause h fun g hg hstarts => hselect ⟨g, hg, hstarts⟩
    rw [hnone] at hc
    cases hc

/-- Completing a draft adds some of the columns that lead back to the event, and a hidden column for
every name from `having` that has none by then, when it comes for the first time. -/
theorem columns_finish {request : SearchRequest} (h : d.finish ctx = .ok request) :
    ∃ (table : Table) (back hidden : List Column) (hs : List HavingField),
      request.table? = some table ∧ table.columns = d.table.columns ++ back ++ hidden ∧
      back.Sublist origins ∧ hs.Sublist d.having ∧
      List.Forall₂ (d.Answers false) (hs.map (d.askedBy ctx)) hidden ∧
      (hs.map (·.name)).Nodup ∧ (∀ f ∈ hs, f.name ∉ d.added) ∧
      ∀ f ∈ d.having, f.name ∈ d.added ∨ ∃ c ∈ back ++ hidden, c.name = f.name := by
  obtain ⟨d₁, table, hhidden, htable, hcolumns⟩ := table_finish h
  obtain ⟨back, hback, hcolumns₀, hadded₀⟩ := columns_addOrigins d
  obtain ⟨hs, hsub, hadds, hnodup, hnew, hall⟩ := adds_addHidden hhidden
  obtain ⟨hidden, hcolumns₁, hanswers⟩ := hadds.columns
  have hsame : d.addOrigins.Answers = d.Answers ∧ d.addOrigins.askedBy ctx = d.askedBy ctx := by
    obtain ⟨_, _, heq⟩ := onlyColumns_addOrigins d
    rw [heq]
    exact ⟨rfl, rfl⟩
  rw [hsame.1, hsame.2] at hanswers
  refine ⟨table, back, hidden, hs, htable, ?_, hback, hsub, hanswers, hnodup, ?_, ?_⟩
  · rw [hcolumns, hcolumns₁, hcolumns₀]
  · intro f hf hmem
    exact hnew f hf ((hadded₀ _).mpr (.inl hmem))
  · intro f hf
    rcases (hadds.added _).mp (hall f hf) with hkey | hbefore
    · have hname : f.name ∈ hidden.map (·.name) := by
        rw [names_of_answers hanswers, List.map_map]
        rw [List.map_map] at hkey
        exact hkey
      obtain ⟨c, hc, hcname⟩ := List.mem_map.mp hname
      exact .inr ⟨c, List.mem_append_right _ hc, hcname⟩
    · rcases (hadded₀ _).mp hbefore with hmem | ⟨c, hc, hcname⟩
      · exact .inl hmem
      · exact .inr ⟨c, List.mem_append_left _ hc, hcname⟩

end

end Draft

/-- The table of a query that compiles has the columns that are selected, then those that lead back
to the event, as far as they are added, then hidden ones for names from `having`. Every such name
can be read in a column. Hidden columns for such names have different names, none of which is the
name of a selected field. -/
theorem having_readable {ctx : Context} {text : String} {request : SearchRequest}
    (h : compile ctx text = .ok request) :
    ∃ root d table selected back hidden, rootOf text = .ok root ∧ Draft.ofRoot ctx root = .ok d ∧
      request.table? = some table ∧ table.columns = selected ++ back ++ hidden ∧
      Draft.Layout ctx root d selected back hidden ∧
      (∀ g extensions, (g.toNode, extensions) ∈ (attachExtensions root.children).2 →
        g.Starts .having → ∃ op, Draft.readCondition ctx true g extensions = .ok (op, d.having)) ∧
      (∀ f ∈ d.having, ∃ c ∈ table.columns, d.ReadIn ctx f.name c) ∧
      (hidden.map (·.name)).Nodup ∧
      ∀ g : Group, g.toNode ∈ root.children → g.Starts .select → ∀ s ∈ d.selections ctx g,
        ∀ field ∈ d.selectedFields ctx s, field ∉ hidden.map (·.name) := by
  obtain ⟨root, hroot, hcompile⟩ := bind_eq_ok.mp h
  obtain ⟨d, hd, hfinish⟩ := bind_eq_ok.mp hcompile
  obtain ⟨table, back, hidden, hs, htable, hcolumns, hback, hsub, hanswers, hnodup, hnew, hnamed⟩ :=
    Draft.columns_finish (Result.ofExcept_eq_ok.mp hfinish)
  have hnames : hidden.map (·.name) = hs.map (·.name) := by
    rw [Draft.names_of_answers hanswers, List.map_map]
    rfl
  refine ⟨root, d, table, d.table.columns, back, hidden, Result.ofExcept_eq_ok.mp hroot, hd, htable,
    hcolumns, ?_, fun g extensions hentry => Draft.having_ofRoot hd hentry, ?_, hnames ▸ hnodup, ?_⟩
  · exact
      { asked := fun g hg hselect => (Draft.selected_ofRoot hd hg hselect).1
        unasked := Draft.owns_columns.of_noClause hd
        shown := Draft.shown_ofRoot hd
        back := hback
        hidden := ⟨hs, hsub, hanswers⟩ }
  · intro f hf
    rw [hcolumns, List.append_assoc]
    rcases hnamed f hf with hadded | ⟨c, hc, hname⟩
    · obtain ⟨c, hc, hread⟩ := Draft.readIn_of_mem_added hd hadded
      exact ⟨c, List.mem_append_left _ hc, hread⟩
    · exact ⟨c, List.mem_append_right _ hc, .inl hname⟩
  · intro g hg hselect s hs' field hfield hmem
    rw [hnames] at hmem
    obtain ⟨f, hf, rfl⟩ := List.mem_map.mp hmem
    -- A selected field is noted, and noted names get no hidden column.
    refine hnew f hf (((Draft.selected_ofRoot hd hg hselect).2 _).mpr ?_)
    rw [List.map_flatMap]
    exact List.mem_flatMap.mpr ⟨s, hs', Draft.key_of_mem_selectedFields hfield⟩

namespace Column.Sample

/-- One name from `having` is selected under another name, and one is not selected. -/
def query : String := "from a having b=c select b as d"

end Column.Sample

open Column.Sample in
theorem having_readable_sample :
    ∃ request root d table, compile .sample query = .ok request ∧ rootOf query = .ok root ∧
      Draft.ofRoot .sample root = .ok d ∧ request.table? = some table ∧
      d.having.map (·.name) = ["b", "c"] ∧
      table.columns.map (fun c => (c.name, c.visible)) =
        [("d", true), ("__stream_id__", false), ("__event_id__", false), ("c", false)] ∧
      ∀ name ∈ ["b", "c"], ∃ c ∈ table.columns, d.ReadIn .sample name c := by
  have hcolumns : ((compile .sample query).toOption.bind (·.table?)).map
      (·.columns.map fun c => (c.name, c.visible)) =
      some [("d", true), ("__stream_id__", false), ("__event_id__", false), ("c", false)] := by
    decide +kernel
  have hnames : (rootOf query).toOption.map
      (fun root => (Draft.ofRoot .sample root).toOption.map (·.having.map (·.name))) =
      some (some ["b", "c"]) := by decide +kernel
  obtain ⟨request, table, h, htable, hcolumns⟩ := exists_table_of_map hcolumns
  obtain ⟨root, d, table', selected, back, hidden, hroot, hd, htable', -, -, -, hread, -⟩ :=
    having_readable h
  cases htable.symm.trans htable'
  rw [hroot] at hnames
  simp only [Except.toOption, Option.map_some, hd, Option.some.injEq] at hnames
  refine ⟨request, root, d, table, h, hroot, hd, htable, hnames, hcolumns, fun name hname => ?_⟩
  rw [← hnames] at hname
  obtain ⟨f, hf, rfl⟩ := List.mem_map.mp hname
  exact hread f hf

end PipeQuery
