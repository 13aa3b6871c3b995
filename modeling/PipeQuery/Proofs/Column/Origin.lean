import PipeQuery.Proofs.Column.Readable

/-!
Rows that are not grouped lead back to their event by two hidden columns. A query without `group`
has both of them, except for those whose identifier its `select` asks for as a name: a field, a
field that a wildcard stands for or an expression of this name takes the place of the column,
whatever it reads.
-/
namespace PipeQuery

namespace Draft

/-- The `select` of a query asks for a column under this key: a field, one of the fields that a
wildcard stands for, or the name of an expression. -/
def Selects (ctx : Context) (root : Group) (d : Draft) (key : String) : Prop :=
  ∃ g : Group, g.toNode ∈ root.children ∧ g.Starts .select ∧
    ∃ s ∈ d.selections ctx g, key ∈ (d.asked ctx s).map (·.key)

section
variable {ctx : Context} {d : Draft}

private theorem columns_addOrigin_eq (d : Draft) (id field : String) :
    (d.addOrigin id field).table.columns =
      d.table.columns ++ if d.added.contains id then [] else [originColumn id field] := by
  rw [addOrigin]
  split
  · rw [List.append_nil]
  · exact columns_noteColumn d id _

/-- Columns that lead back are added in order, each unless its name is taken. Those before it do not
take its name. -/
theorem columns_foldl_addOrigin (origins : List (String × String))
    (hnodup : (origins.map (·.1)).Nodup) (d : Draft) :
    (origins.foldl (fun d o => d.addOrigin o.1 o.2) d).table.columns = d.table.columns ++
      (origins.filter fun o => !d.added.contains o.1).map fun o => originColumn o.1 o.2 := by
  induction origins generalizing d with
  | nil => simp
  | cons o origins ih =>
    obtain ⟨hnew, hnodup⟩ := List.nodup_cons.mp hnodup
    have hadded : ∀ p ∈ origins,
        (d.addOrigin o.1 o.2).added.contains p.1 = d.added.contains p.1 := by
      intro p hp
      have hne : p.1 ≠ o.1 := fun heq => hnew (List.mem_map.mpr ⟨p, hp, heq⟩)
      rw [Bool.eq_iff_iff, List.contains_iff_mem, List.contains_iff_mem, (hides_addOrigin d _ _).2]
      simp [hne]
    have hfilter : (origins.filter fun p => !(d.addOrigin o.1 o.2).added.contains p.1) =
        origins.filter fun p => !d.added.contains p.1 :=
      List.filter_congr fun p hp => by rw [hadded p hp]
    rw [List.foldl_cons, ih hnodup, hfilter, columns_addOrigin_eq, List.append_assoc,
      List.filter_cons]
    split <;> simp_all

private theorem columns_addOrigins_of_ungrouped (h : d.depth = 0) :
    d.addOrigins.table.columns = d.table.columns ++
      (originColumns.filter fun o => !d.added.contains o.1).map fun o => originColumn o.1 o.2 := by
  rw [addOrigins, if_pos h]
  exact columns_foldl_addOrigin originColumns (by decide) d

/-- The names that have a column at the end of the walk are those that `select` asks for. -/
theorem mem_added_ofRoot {root : Group} (h : ofRoot ctx root = .ok d) {key : String} :
    key ∈ d.added ↔ d.Selects ctx root key := by
  constructor
  · intro hkey
    by_cases hselect : ∃ g : Group, g.toNode ∈ root.children ∧ g.Starts .select
    · obtain ⟨g, hg, hselect⟩ := hselect
      have hmem := ((selected_ofRoot h hg hselect).2 key).mp hkey
      rw [List.map_flatMap] at hmem
      obtain ⟨s, hs, hkey⟩ := List.mem_flatMap.mp hmem
      exact ⟨g, hg, hselect, s, hs, hkey⟩
    · have hnone : d.added = [] :=
        owns_added.of_noClause h fun g hg hstarts => hselect ⟨g, hg, hstarts⟩
      rw [hnone] at hkey
      cases hkey
  · rintro ⟨g, hg, hselect, s, hs, hkey⟩
    refine ((selected_ofRoot h hg hselect).2 key).mpr ?_
    rw [List.map_flatMap]
    exact List.mem_flatMap.mpr ⟨s, hs, hkey⟩

/-- Of the columns of a finished table only those that lead back are like them: selected ones are
shown, and hidden ones for names from `having` have names that were not taken before. -/
theorem mem_finish_iff {root : Group} {request : SearchRequest} (h : ofRoot ctx root = .ok d)
    (hungrouped : d.depth = 0) (hfinish : d.finish ctx = .ok request) :
    ∃ table, request.table? = some table ∧ ∀ o ∈ originColumns,
      (originColumn o.1 o.2 ∈ table.columns ↔ o.1 ∉ d.added) := by
  obtain ⟨d₁, table, hhidden, htable, hcolumns⟩ := table_finish hfinish
  obtain ⟨hs, -, hadds, -, hnew, -⟩ := adds_addHidden hhidden
  obtain ⟨hidden, hcolumns₁, hanswers⟩ := hadds.columns
  refine ⟨table, htable, ?_⟩
  intro o ho
  rw [hcolumns, hcolumns₁, columns_addOrigins_of_ungrouped hungrouped]
  constructor
  · intro hmem
    rcases List.mem_append.mp hmem with hmem | hmem
    · rcases List.mem_append.mp hmem with hmem | hmem
      · cases (shown_ofRoot h _ hmem).1
      · obtain ⟨p, hp, heq⟩ := List.mem_map.mp hmem
        have hid : p.1 = o.1 := congrArg Column.id heq
        simpa [hid] using (List.mem_filter.mp hp).2
    · obtain ⟨a, ha, id, e, -, heq⟩ := (exists_of_answers hanswers).2 _ hmem
      obtain ⟨f, hf, rfl⟩ := List.mem_map.mp ha
      have hname : o.1 = f.name := congrArg Column.name heq
      obtain ⟨back, -, -, hadded⟩ := columns_addOrigins d
      intro hmem
      exact hnew f hf ((hadded f.name).mpr (.inl (hname ▸ hmem)))
  · intro hfree
    refine List.mem_append_left _ (List.mem_append_right _ (List.mem_map.mpr ⟨o, ?_, rfl⟩))
    exact List.mem_filter.mpr ⟨ho, by simpa using hfree⟩

end

end Draft

/-- The table of a query without `group` has a hidden column that leads back to the stream and one
that leads back to the event, each exactly if the query does not select its identifier as a name. -/
theorem origins_iff_unselected {ctx : Context} {text : String} {request : SearchRequest}
    (h : compile ctx text = .ok request) :
    ∃ root d table, rootOf text = .ok root ∧ Draft.ofRoot ctx root = .ok d ∧
      request.table? = some table ∧
      ((∀ g : Group, g.toNode ∈ root.children → ¬ g.Starts .group) →
        ∀ o ∈ Draft.originColumns,
          (Draft.originColumn o.1 o.2 ∈ table.columns ↔ ¬ d.Selects ctx root o.1)) := by
  obtain ⟨root, hroot, hcompile⟩ := bind_eq_ok.mp h
  obtain ⟨d, hd, hfinish⟩ := bind_eq_ok.mp hcompile
  obtain ⟨d₁, table, -, htable, -⟩ := Draft.table_finish (Result.ofExcept_eq_ok.mp hfinish)
  refine ⟨root, d, table, Result.ofExcept_eq_ok.mp hroot, hd, htable, ?_⟩
  intro hungrouped o ho
  have hdepth : d.depth = 0 := Draft.owns_depth.of_noClause hd hungrouped
  obtain ⟨table', htable', horigins⟩ :=
    Draft.mem_finish_iff hd hdepth (Result.ofExcept_eq_ok.mp hfinish)
  cases htable.symm.trans htable'
  rw [horigins o ho, Draft.mem_added_ofRoot hd]

example : Draft.origins.map (fun c => (c.name, c.expression)) =
    [("__stream_id__", "$\x7bStreamId\x7d"), ("__event_id__", "$\x7bEventId\x7d")] := by
  decide

namespace Column.Sample

/-- The field of one column that leads back is selected under another name. -/
def traced : String := "from a select StreamId"

/-- An expression has the name of a column that leads back. -/
def untraced : String := "from a select f() as __stream_id__"

def stream : Column :=
  { id := "streamid-1", name := "StreamId", expression := "$\x7bStreamId\x7d", visible := true,
    special := false }

end Column.Sample

open Column.Sample in
theorem origins_iff_unselected_sample :
    ∃ request root d table, compile .sample traced = .ok request ∧ rootOf traced = .ok root ∧
      Draft.ofRoot .sample root = .ok d ∧ request.table? = some table ∧
      table.columns = stream :: Draft.origins ∧
      ∀ o ∈ Draft.originColumns, ¬ d.Selects .sample root o.1 := by
  have hcolumns : ((compile .sample traced).toOption.bind (·.table?)).map (·.columns) =
      some (stream :: Draft.origins) := by decide +kernel
  have hungrouped : (rootOf traced).toOption.map (fun root => Node.holds root.children .group) =
      some false := by decide +kernel
  obtain ⟨request, table, h, htable, hcolumns⟩ := exists_table_of_map hcolumns
  obtain ⟨root, d, table', hroot, hd, htable', hiff⟩ := origins_iff_unselected h
  cases htable.symm.trans htable'
  refine ⟨request, root, d, table, h, hroot, hd, htable, hcolumns, fun o ho => ?_⟩
  rw [hroot] at hungrouped
  refine (hiff (fun g hg hstarts => ?_) o ho).mp ?_
  · have hholds : Node.holds root.children .group = true := Node.holds_iff.mpr ⟨g, hg, hstarts⟩
    simp [Except.toOption, hholds] at hungrouped
  · rw [hcolumns]
    exact List.mem_cons_of_mem _ (List.mem_map_of_mem ho)

open Column.Sample in
/-- A name takes the place of the column that leads back to the stream, in a query of two clauses
without `group`. -/
theorem name_hides_origin :
    ∃ request table, compile .sample untraced = .ok request ∧ request.table? = some table ∧
      (Lexer.tokens untraced).all (·.kind != .clause .group) ∧
      table.columns.map (fun c => (c.name, c.expression, c.visible)) =
        [("__stream_id__", "f()", true), ("__event_id__", "$\x7bEventId\x7d", false)] := by
  have hcolumns : ((compile .sample untraced).toOption.bind (·.table?)).map
      (·.columns.map fun c => (c.name, c.expression, c.visible)) =
      some [("__stream_id__", "f()", true), ("__event_id__", "$\x7bEventId\x7d", false)] := by
    decide +kernel
  obtain ⟨request, table, h, htable, hcolumns⟩ := exists_table_of_map hcolumns
  exact ⟨request, table, h, htable, by decide +kernel, hcolumns⟩

end PipeQuery
