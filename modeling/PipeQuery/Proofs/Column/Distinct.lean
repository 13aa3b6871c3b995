import Mathlib.Data.List.Nodup
import PipeQuery.Proofs.Clause.Order
import PipeQuery.Proofs.Column.Id

/-!
Which columns of a table have identifiers of their own. Those that are selected do. A hidden column
for a name from `having` has the name with its blanks replaced, so it may share its identifier with
another such column, or with a column that leads back to the event.
-/
namespace PipeQuery

namespace Draft

/-- The names from `having` that need a hidden column. -/
def unselected (d : Draft) : List String :=
  (d.having.map (·.name)).filter (!d.addOrigins.added.contains ·)

def originIds (d : Draft) : List String :=
  if d.depth = 0 then (originColumns.map (·.1)).filter (!d.added.contains ·) else []

def HiddenApart (d : Draft) : Prop :=
  (∀ m ∈ d.unselected, ∀ n ∈ d.unselected, hiddenId m = hiddenId n → m = n) ∧
    ∀ n ∈ d.unselected, hiddenId n ∉ d.originIds

section
variable {ctx : Context} {d d' : Draft}

theorem columns_noteColumn (d : Draft) (name : String) (c : Column) :
    ((d.note name).addColumn c).table.columns = d.table.columns ++ [c] := by
  rw [note]
  split <;> rfl

theorem mem_added_noteColumn (d : Draft) (name n : String) (c : Column) :
    n ∈ ((d.note name).addColumn c).added ↔ n = name ∨ n ∈ d.added := by
  rw [note]
  split
  next h =>
    have hmem : name ∈ d.added := by simpa using h
    exact ⟨.inr, fun hn => hn.elim (fun heq => heq ▸ hmem) id⟩
  next => simp [addColumn, or_comm]

/-- A field adds one column, with the identifier that is given. -/
theorem columns_addField {place : Place} {id field name : String} {visible special : Bool}
    (h : d.addField ctx place id field name visible special = .ok d') :
    ∃ c : Column, c.id = id ∧ c.visible = visible ∧ d'.table.columns = d.table.columns ++ [c] ∧
      ∀ n, n ∈ d'.added ↔ n = field ∨ n ∈ d.added := by
  obtain ⟨e, -, hd⟩ := bind_eq_ok.mp h
  cases hd
  exact ⟨d.column id name field e visible special, rfl, rfl, columns_noteColumn d field _,
    fun n => mem_added_noteColumn d field n _⟩

/-- The columns are all selected, and their identifiers are those that the counts stand for. -/
structure Chosen (counts : ColumnId.Counts) (columns : List Column) : Prop where
  issued : ColumnId.Issued counts (columns.map (·.id))
  visible : ∀ c ∈ columns, c.visible

theorem Chosen.next {counts : ColumnId.Counts} {columns : List Column} (h : Chosen counts columns)
    {name : String} {c : Column} (hid : c.id = (ColumnId.next counts name).1) (hc : c.visible) :
    Chosen (ColumnId.next counts name).2 (columns ++ [c]) := by
  constructor
  · rw [List.map_append, List.map_singleton, hid]
    exact h.issued.next name
  · intro c' hc'
    rcases List.mem_append.mp hc' with hc' | hc'
    · exact h.visible c' hc'
    · cases List.mem_singleton.mp hc'
      exact hc

private theorem chosen_addFields {place : Place} {fields : List String} {counts : ColumnId.Counts}
    {r : Draft × ColumnId.Counts} (hd : Chosen counts d.table.columns)
    (h : addFields ctx place d counts fields = .ok r) : Chosen r.2 r.1.table.columns := by
  induction fields generalizing d counts with
  | nil =>
    cases h
    exact hd
  | cons field fields ih =>
    obtain ⟨d₁, hfield, hrest⟩ := bind_eq_ok.mp h
    obtain ⟨c, hid, hvisible, hcolumns, -⟩ := columns_addField hfield
    refine ih ?_ hrest
    rw [hcolumns]
    exact hd.next hid hvisible

private theorem chosen_addSelection {counts : ColumnId.Counts} {s : Selection}
    {r : Draft × ColumnId.Counts} (hd : Chosen counts d.table.columns)
    (h : d.addSelection ctx counts s = .ok r) : Chosen r.2 r.1.table.columns := by
  rw [addSelection] at h
  split at h
  next n _ =>
    split at h
    · exact chosen_addFields hd h
    · obtain ⟨d₁, hfield, hr⟩ := bind_eq_ok.mp h
      cases hr
      obtain ⟨c, hid, hvisible, hcolumns, -⟩ := columns_addField hfield
      rw [hcolumns]
      exact hd.next hid hvisible
  next e _ =>
    cases h
    rw [columns_noteColumn]
    exact hd.next rfl rfl

private theorem chosen_addSelections {selections : List Selection} {counts : ColumnId.Counts}
    (hd : Chosen counts d.table.columns) (h : addSelections ctx d counts selections = .ok d') :
    ∃ counts', Chosen counts' d'.table.columns := by
  induction selections generalizing d counts with
  | nil =>
    cases h
    exact ⟨counts, hd⟩
  | cons s rest ih =>
    obtain ⟨⟨d₁, counts₁⟩, hs, hrest⟩ := bind_eq_ok.mp h
    exact ih (chosen_addSelection hd hs) hrest

private theorem chosen_nil : Chosen {} [] := ⟨ColumnId.issued_nil {}, by simp⟩

private theorem chosen_readSelect {clause : Group} (hd : d.table.columns = [])
    (h : d.readSelect ctx clause = .ok d') : ∃ counts, Chosen counts d'.table.columns := by
  obtain ⟨d₁, hselections, hfault⟩ := bind_eq_ok.mp h
  split at hfault
  · cases hfault
    exact chosen_addSelections (hd ▸ chosen_nil) hselections
  · cases hfault

/-- What a walk keeps of the columns: they are all selected, and there are none before `select`. -/
def Picked (d : Draft) : Prop :=
  (.select ∉ d.consumed → d.table.columns = []) ∧ ∃ counts, Chosen counts d.table.columns

private theorem picked_readEntry {entry : Node × List Extension} (hd : Picked d)
    (h : d.readEntry ctx entry = .ok d') : Picked d' := by
  obtain ⟨c, d₁, -, horder, hstep, rfl⟩ := readEntry_eq_ok h
  have hcolumns := hstep.columns
  by_cases hselect : c.clause = .select
  · rw [if_pos hselect] at hcolumns
    -- There is one `select` at most, so the counts start where the columns do.
    have hnone : .select ∉ d.consumed := by
      intro hmem
      have hvalid := ((Clause.checkOrder_eq_ok_iff _ _ _).mp horder).2 _ hmem
      rw [hselect] at hvalid
      exact absurd hvalid (by decide)
    have hchosen := chosen_readSelect (hd.1 hnone) hcolumns
    refine ⟨fun hmem => absurd ?_ hmem, hchosen⟩
    simp [hselect]
  · rw [if_neg hselect] at hcolumns
    refine ⟨fun hmem => ?_, ?_⟩
    · exact hcolumns.trans (hd.1 fun h => hmem (List.mem_append_left _ h))
    · rw [hcolumns]
      exact hd.2

private theorem picked_readEntries {entries : List (Node × List Extension)} (hd : Picked d)
    (h : readEntries ctx d entries = .ok d') : Picked d' := by
  induction entries generalizing d with
  | nil =>
    cases h
    exact hd
  | cons entry entries ih =>
    obtain ⟨d₁, hentry, hrest⟩ := bind_eq_ok.mp h
    exact ih (picked_readEntry hd hentry) hrest

theorem chosen_ofRoot {root : Group} (h : ofRoot ctx root = .ok d) :
    ∃ counts, Chosen counts d.table.columns := by
  obtain ⟨-, hread⟩ := ofRoot_eq_ok_iff.mp h
  exact (picked_readEntries ⟨fun _ => rfl, {}, chosen_nil⟩ hread).2

def Hides (d d' : Draft) (ids : List String) : Prop :=
  ∃ columns : List Column, d'.table.columns = d.table.columns ++ columns ∧
    columns.map (·.id) = ids ∧ ∀ c ∈ columns, c.visible = false

theorem Hides.refl (d : Draft) : Hides d d [] := ⟨[], by simp⟩

private theorem Hides.one {c : Column} (h : d'.table.columns = d.table.columns ++ [c])
    (hc : c.visible = false) : Hides d d' [c.id] := by
  refine ⟨[c], h, rfl, ?_⟩
  intro c' hc'
  cases List.mem_singleton.mp hc'
  exact hc

theorem Hides.trans {d₁ d₂ d₃ : Draft} {ids ids' : List String} (h : Hides d₁ d₂ ids)
    (h' : Hides d₂ d₃ ids') : Hides d₁ d₃ (ids ++ ids') := by
  obtain ⟨columns, hcolumns, rfl, hhidden⟩ := h
  obtain ⟨columns', hcolumns', rfl, hhidden'⟩ := h'
  refine ⟨columns ++ columns', ?_, List.map_append, ?_⟩
  · rw [hcolumns', hcolumns, List.append_assoc]
  · intro c hc
    exact (List.mem_append.mp hc).elim (hhidden c) (hhidden' c)

theorem hides_addOrigin (d : Draft) (id field : String) :
    Hides d (d.addOrigin id field) ([id].filter (!d.added.contains ·)) ∧
      ∀ n, n ∈ (d.addOrigin id field).added ↔ n = id ∨ n ∈ d.added := by
  rw [addOrigin]
  split
  next h =>
    have hmem : id ∈ d.added := by simpa using h
    constructor
    · rw [List.filter_cons_of_neg (by simpa using hmem)]
      exact .refl d
    · exact fun n => ⟨.inr, fun hn => hn.elim (fun heq => heq ▸ hmem) fun hn => hn⟩
  next h =>
    constructor
    · rw [List.filter_cons_of_pos (by simpa using h)]
      exact .one (columns_noteColumn d id _) rfl
    · exact fun n => mem_added_noteColumn d id n _

theorem hides_addOrigins (d : Draft) : Hides d d.addOrigins d.originIds := by
  rw [addOrigins, originIds]
  split
  · have hfirst := hides_addOrigin d "__stream_id__" "StreamId"
    have hsecond :=
      hides_addOrigin (d.addOrigin "__stream_id__" "StreamId") "__event_id__" "EventId"
    -- The first column does not take the second one's name.
    have hadded : (d.addOrigin "__stream_id__" "StreamId").added.contains "__event_id__" =
        d.added.contains "__event_id__" := by
      rw [Bool.eq_iff_iff, List.contains_iff_mem, List.contains_iff_mem, hfirst.2]
      simp
    have hids : (originColumns.map (·.1)).filter (!d.added.contains ·) =
        ["__stream_id__"].filter (!d.added.contains ·) ++
          ["__event_id__"].filter
            (!(d.addOrigin "__stream_id__" "StreamId").added.contains ·) := by
      simp only [originColumns, List.map_cons, List.map_nil, List.filter_cons, List.filter_nil,
        hadded]
      split <;> rfl
    rw [hids]
    exact hfirst.1.trans hsecond.1
  · exact .refl d

/-- One hidden column for each name that has no column, whichever order the names come in. -/
theorem hides_addHidden {fields : List HavingField} (h : addHidden ctx d fields = .ok d') :
    ∃ names : List String, names.Nodup ∧ Hides d d' (names.map hiddenId) ∧
      ∀ n, n ∈ names ↔ n ∈ (fields.map (·.name)).filter (!d.added.contains ·) := by
  induction fields generalizing d with
  | nil =>
    cases h
    exact ⟨[], .nil, .refl _, by simp⟩
  | cons f fields ih =>
    rw [addHidden] at h
    split at h
    next hf =>
      obtain ⟨names, hnodup, hhides, hmem⟩ := ih h
      refine ⟨names, hnodup, hhides, ?_⟩
      intro n
      rw [hmem, List.map_cons, List.filter_cons_of_neg (by simpa using hf)]
    next hf =>
      obtain ⟨d₁, hfield, hrest⟩ := bind_eq_ok.mp h
      obtain ⟨c, hid, hvisible, hcolumns, hadded⟩ := columns_addField hfield
      obtain ⟨names, hnodup, hhides, hmem⟩ := ih hrest
      have hnew : f.name ∉ names := by
        rw [hmem]
        simp [hadded]
      refine ⟨f.name :: names, List.nodup_cons.mpr ⟨hnew, hnodup⟩, ?_, ?_⟩
      · have hone : Hides d d₁ [hiddenId f.name] := hid ▸ .one hcolumns hvisible
        exact hone.trans hhides
      · intro n
        have hfree : f.name ∉ d.added := by simpa using hf
        rw [List.mem_cons, hmem]
        simp only [List.map_cons, List.mem_filter, List.mem_cons, Bool.not_eq_true',
          List.contains_eq_mem, decide_eq_false_iff_not, hadded, not_or]
        by_cases hn : n = f.name
        · simp [hn, hfree]
        · simp [hn]

private theorem getLast?_hiddenId (name : String) : (hiddenId name).toList.getLast? = some '_' := by
  rw [hiddenId, String.toList_append]
  exact List.getLast?_append_of_ne_nil _ (by decide)

private theorem getLast?_of_mem_originIds {id : String} (h : id ∈ d.originIds) :
    id.toList.getLast? = some '_' := by
  rw [originIds] at h
  split at h
  · have hid := List.mem_of_mem_filter h
    simp only [originColumns, List.map_cons, List.map_nil, List.mem_cons, List.not_mem_nil,
      or_false] at hid
    rcases hid with rfl | rfl <;> decide
  · cases h

private theorem getLast?_of_mem_hidden {names : List String} {id : String}
    (h : id ∈ d.originIds ++ names.map hiddenId) : id.toList.getLast? = some '_' := by
  rcases List.mem_append.mp h with h | h
  · exact getLast?_of_mem_originIds h
  · obtain ⟨n, -, rfl⟩ := List.mem_map.mp h
    exact getLast?_hiddenId n

private theorem nodup_originIds (d : Draft) : d.originIds.Nodup := by
  rw [originIds]
  split
  · exact List.Nodup.filter _ (by decide)
  · exact .nil

theorem table_finish {request : SearchRequest} (h : d.finish ctx = .ok request) :
    ∃ d₁ table, d.addOrigins.addHidden ctx d.having = .ok d₁ ∧ request.table? = some table ∧
      table.columns = d₁.table.columns := by
  rw [finish] at h
  split at h
  · cases h
  · obtain ⟨d₁, hhidden, hrequest⟩ := bind_eq_ok.mp h
    cases hrequest
    exact ⟨d₁, _, hhidden, rfl, rfl⟩

/-- The hidden columns of a finished draft. -/
theorem hides_finish {request : SearchRequest} (h : d.finish ctx = .ok request) :
    ∃ (table : Table) (names : List String) (columns : List Column),
      request.table? = some table ∧
      table.columns = d.table.columns ++ columns ∧ (∀ c ∈ columns, c.visible = false) ∧
      columns.map (·.id) = d.originIds ++ names.map hiddenId ∧ names.Nodup ∧
      ∀ n, n ∈ names ↔ n ∈ d.unselected := by
  obtain ⟨d₁, table, hhidden, htable, hcolumns⟩ := table_finish h
  obtain ⟨names, hnodup, hhides, hmem⟩ := hides_addHidden hhidden
  obtain ⟨columns, happend, hids, hinvisible⟩ := (hides_addOrigins d).trans hhides
  exact ⟨table, names, columns, htable, hcolumns.trans happend, hinvisible, hids, hnodup, hmem⟩

private theorem nodup_hidden_iff {names : List String} (hnodup : names.Nodup)
    (hmem : ∀ n, n ∈ names ↔ n ∈ d.unselected) :
    (d.originIds ++ names.map hiddenId).Nodup ↔ d.HiddenApart := by
  rw [List.nodup_append, List.nodup_map_iff_inj_on hnodup, HiddenApart]
  simp only [hmem]
  constructor
  · rintro ⟨-, hinj, hdisjoint⟩
    refine ⟨hinj, ?_⟩
    intro n hn hid
    exact hdisjoint _ hid _ (List.mem_map_of_mem ((hmem n).mpr hn)) rfl
  · rintro ⟨hinj, hdisjoint⟩
    refine ⟨nodup_originIds d, hinj, ?_⟩
    rintro id hid id' hid' rfl
    obtain ⟨n, hn, rfl⟩ := List.mem_map.mp hid'
    exact hdisjoint n ((hmem n).mp hn) hid

end

end Draft

/-- Selected columns have identifiers of their own, which no hidden column has. All columns do
exactly if the hidden ones do. -/
theorem columnIds_nodup_iff {ctx : Context} {text : String} {request : SearchRequest}
    (h : compile ctx text = .ok request) :
    ∃ root d table, rootOf text = .ok root ∧ Draft.ofRoot ctx root = .ok d ∧
      request.table? = some table ∧
      ((table.columns.filter (·.visible)).map (·.id)).Nodup ∧
      (∀ c ∈ table.columns, ∀ c' ∈ table.columns, c.visible = true → c'.visible = false →
        c.id ≠ c'.id) ∧
      ((table.columns.map (·.id)).Nodup ↔ d.HiddenApart) := by
  obtain ⟨root, hroot, hcompile⟩ := bind_eq_ok.mp h
  obtain ⟨d, hd, hfinish⟩ := bind_eq_ok.mp hcompile
  obtain ⟨counts, hchosen⟩ := Draft.chosen_ofRoot hd
  obtain ⟨table, names, hidden, htable, hcolumns, hinvisible, hids, hnodup, hmem⟩ :=
    Draft.hides_finish (Result.ofExcept_eq_ok.mp hfinish)
  -- A number ends the one kind of identifier, and a line the other.
  have hapart : ∀ id ∈ d.table.columns.map (·.id), ∀ id' ∈ hidden.map (·.id), id ≠ id' := by
    rintro id hid id' hid' rfl
    exact hchosen.issued.getLast?_ne hid (Draft.getLast?_of_mem_hidden (hids ▸ hid'))
  refine ⟨root, d, table, Result.ofExcept_eq_ok.mp hroot, hd, htable, ?_, ?_, ?_⟩
  · have hnone : hidden.filter (·.visible) = [] := by
      rw [List.filter_eq_nil_iff]
      intro c hc
      simp [hinvisible c hc]
    rw [hcolumns, List.filter_append, hnone, List.append_nil,
      List.filter_eq_self.mpr hchosen.visible]
    exact hchosen.issued.nodup
  · rw [hcolumns]
    intro c hc c' hc' hvisible hhidden
    rcases List.mem_append.mp hc with hc | hc
    · rcases List.mem_append.mp hc' with hc' | hc'
      · rw [hchosen.visible c' hc'] at hhidden
        cases hhidden
      · exact hapart _ (List.mem_map_of_mem hc) _ (List.mem_map_of_mem hc')
    · rw [hinvisible c hc] at hvisible
      cases hvisible
  · rw [← Draft.nodup_hidden_iff hnodup hmem, hcolumns, List.map_append, List.nodup_append, hids]
    rw [hids] at hapart
    exact ⟨fun hall => hall.2.1, fun hhidden => ⟨hchosen.issued.nodup, hhidden, hapart⟩⟩

namespace Draft.Sample

def query : String := "from a having x=1 select b,B"

/-- The hidden column has the identifier of one that leads back to the event. -/
def clash : String := "from a having stream_id=1"

end Draft.Sample

open Draft.Sample in
theorem columnIds_nodup_iff_sample :
    ∃ request root d table, compile .sample query = .ok request ∧ rootOf query = .ok root ∧
      Draft.ofRoot .sample root = .ok d ∧ request.table? = some table ∧
      table.columns.map (·.id) = ["b-1", "b-2", "__stream_id__", "__event_id__", "__x__"] ∧
      d.HiddenApart := by
  have hids : ((compile .sample query).toOption.bind (·.table?)).map (·.columns.map (·.id)) =
      some ["b-1", "b-2", "__stream_id__", "__event_id__", "__x__"] := by decide +kernel
  obtain ⟨request, table, h, htable, hids⟩ := exists_table_of_map hids
  obtain ⟨root, d, table', hroot, hd, htable', -, -, hiff⟩ := columnIds_nodup_iff h
  cases htable.symm.trans htable'
  refine ⟨request, root, d, table, h, hroot, hd, htable, hids, hiff.mp ?_⟩
  rw [hids]
  decide

open Draft.Sample in
theorem columnIds_clash :
    ∃ request table, compile .sample clash = .ok request ∧ request.table? = some table ∧
      ¬ (table.columns.map (·.id)).Nodup := by
  have hids : ((compile .sample clash).toOption.bind (·.table?)).map (·.columns.map (·.id)) =
      some ["__stream_id__", "__event_id__", "__stream_id__"] := by decide +kernel
  obtain ⟨request, table, h, htable, hids⟩ := exists_table_of_map hids
  refine ⟨request, table, h, htable, ?_⟩
  rw [hids]
  decide

end PipeQuery
