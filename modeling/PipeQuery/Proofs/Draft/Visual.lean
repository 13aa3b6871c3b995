import PipeQuery.Proofs.Clause.Exchange
import PipeQuery.Proofs.Column.Distinct

/-!
The table of a visualisation. A `show` clause takes a copy of the table as it is then. It is the
last clause of its query, so no clause changes the table after it, but the completion of the table
does: it adds the hidden columns and asks for values, and the copy has neither.
-/
namespace PipeQuery

private theorem Clause.present_notMem_validAfter (c : Clause) : .present ∉ c.validAfter := by
  cases c <;> decide

namespace Draft

section
variable {ctx : Context} {d d' : Draft}

/-- The table asks for no values yet, and for no visualisation. -/
def Unmarked (d : Draft) : Prop := d.table.extractValues = false ∧ d.table.visual = none

theorem OnlyColumns.unmarked (h : OnlyColumns d d') (hd : d.Unmarked) : d'.Unmarked := by
  obtain ⟨columns, added, rfl⟩ := h
  exact hd

private theorem unmarked_readPlain {clause : Clause} {g : Group} (hd : d.Unmarked)
    (h : d.readPlain ctx clause g = .ok d') : d'.Unmarked := by
  cases clause with
  | source | window | group | limit | present =>
    obtain ⟨_, -, hd'⟩ := bind_eq_ok.mp h
    cases hd'
    exact hd
  | eval =>
    obtain ⟨_, -, hrest⟩ := bind_eq_ok.mp h
    obtain ⟨_, -, hd'⟩ := bind_eq_ok.mp hrest
    cases hd'
    exact hd
  | sort =>
    obtain ⟨keys, -, hd'⟩ := bind_eq_ok.mp h
    cases hd'
    rw [addSorts_eq]
    exact hd
  | select => exact (onlyColumns_readSelect h).unmarked hd
  | restrict | filter | having =>
    cases h
    exact hd

private theorem unmarked_readClause {c : ClauseGroup} {extensions : List Extension}
    (hd : d.Unmarked) (h : d.readClause ctx c extensions = .ok d') : d'.Unmarked := by
  rw [readClause] at h
  split at h
  · obtain ⟨_, -, hd'⟩ := bind_eq_ok.mp h
    cases hd'
    exact hd
  · obtain ⟨_, -, hd'⟩ := bind_eq_ok.mp h
    cases hd'
    exact hd
  · obtain ⟨_, -, hd'⟩ := bind_eq_ok.mp h
    cases hd'
    exact hd
  · exact unmarked_readPlain hd (readAlone_eq_ok_iff.mp h).1

private theorem unmarked_readEntries {entries : List (Node × List Extension)} (hd : d.Unmarked)
    (h : readEntries ctx d entries = .ok d') : d'.Unmarked := by
  induction entries generalizing d with
  | nil =>
    cases h
    exact hd
  | cons entry entries ih =>
    obtain ⟨d₁, hentry, hrest⟩ := bind_eq_ok.mp h
    obtain ⟨c, d₂, -, -, hread, rfl⟩ := readEntry_eq_ok_iff.mp hentry
    have hnext : d₂.Unmarked := unmarked_readClause hd hread
    refine ih ?_ hrest
    exact hnext

/-- No clause may stand after `show`. -/
theorem eq_nil_of_present {entries : List (Node × List Extension)} (hd : .present ∈ d.consumed)
    (h : readEntries ctx d entries = .ok d') : entries = [] := by
  cases entries with
  | nil => rfl
  | cons entry entries =>
    obtain ⟨d₁, hentry, -⟩ := bind_eq_ok.mp h
    obtain ⟨c, -, -, horder, -⟩ := readEntry_eq_ok_iff.mp hentry
    have hvalid := ((Clause.checkOrder_eq_ok_iff _ _ _).mp horder).2 _ hd
    exact absurd hvalid c.clause.present_notMem_validAfter

/-- The walk ends with its `show`, whose table is made from the table of the walk. -/
theorem visual_readEntries {entries : List (Node × List Extension)} {g : Group}
    (hg : g.toNode ∈ entries.map (·.1)) (hshow : g.Starts .present)
    (h : readEntries ctx d entries = .ok d') :
    ∃ t, ctx.services.readVisual g d'.table = .ok t ∧ d'.visual = some t := by
  obtain ⟨entry, hentry, hnode⟩ := List.mem_map.mp hg
  obtain ⟨front, back, rfl⟩ := List.append_of_mem hentry
  rw [readEntries_append] at h
  obtain ⟨d₁, -, hrest⟩ := bind_eq_ok.mp h
  obtain ⟨d₂, hd₂, hback⟩ := bind_eq_ok.mp hrest
  obtain ⟨c, d₃, hc, -, hread, rfl⟩ := readEntry_eq_ok_iff.mp hd₂
  obtain ⟨place, hplace⟩ := Node.exists_clauseGroup hshow
  rw [hnode, hplace] at hc
  cases hc
  rw [eq_nil_of_present (by simp) hback] at hback
  cases hback
  obtain ⟨t, ht, hd₃⟩ := bind_eq_ok.mp (readAlone_eq_ok_iff.mp hread).1
  cases hd₃
  exact ⟨t, ht, rfl⟩

private theorem visual_ofRoot {root g : Group} (hg : g.toNode ∈ root.children)
    (hshow : g.Starts .present) (h : ofRoot ctx root = .ok d) :
    d.Unmarked ∧ ∃ t, ctx.services.readVisual g d.table = .ok t ∧ d.visual = some t := by
  obtain ⟨-, hread⟩ := ofRoot_eq_ok_iff.mp h
  refine ⟨unmarked_readEntries ⟨rfl, rfl⟩ hread, visual_readEntries ?_ hshow hread⟩
  rw [entries_attachExtensions]
  exact List.mem_filter.mpr ⟨hg, by rw [Node.extension?_of_starts hshow]; rfl⟩

private theorem visual_readPlain {clause : Clause} {g : Group} (hclause : clause ≠ .present)
    (h : d.readPlain ctx clause g = .ok d') : d'.visual = d.visual := by
  cases clause with
  | source | window | group | limit =>
    obtain ⟨_, -, hd'⟩ := bind_eq_ok.mp h
    cases hd'
    rfl
  | eval =>
    obtain ⟨_, -, hrest⟩ := bind_eq_ok.mp h
    obtain ⟨_, -, hd'⟩ := bind_eq_ok.mp hrest
    cases hd'
    rfl
  | sort =>
    obtain ⟨keys, -, hd'⟩ := bind_eq_ok.mp h
    cases hd'
    rw [addSorts_eq]
  | select =>
    obtain ⟨columns, added, rfl⟩ := onlyColumns_readSelect h
    rfl
  | present => exact absurd rfl hclause
  | restrict | filter | having =>
    cases h
    rfl

private theorem visual_readClause {c : ClauseGroup} {extensions : List Extension}
    (hc : c.clause ≠ .present) (h : d.readClause ctx c extensions = .ok d') :
    d'.visual = d.visual := by
  rw [readClause] at h
  split at h
  · obtain ⟨_, -, hd'⟩ := bind_eq_ok.mp h
    cases hd'
    rfl
  · obtain ⟨_, -, hd'⟩ := bind_eq_ok.mp h
    cases hd'
    rfl
  · obtain ⟨_, -, hd'⟩ := bind_eq_ok.mp h
    cases hd'
    rfl
  · exact visual_readPlain hc (readAlone_eq_ok_iff.mp h).1

private theorem visual_readEntries_of_noShow {entries : List (Node × List Extension)}
    (hshow : ∀ g : Group, g.toNode ∈ entries.map (·.1) → ¬ g.Starts .present)
    (h : readEntries ctx d entries = .ok d') : d'.visual = d.visual := by
  induction entries generalizing d with
  | nil =>
    cases h
    rfl
  | cons entry entries ih =>
    obtain ⟨d₁, hentry, hrest⟩ := bind_eq_ok.mp h
    obtain ⟨c, d₂, hc, -, hclause, rfl⟩ := readEntry_eq_ok_iff.mp hentry
    obtain ⟨hnode, hstarts⟩ := Node.clauseGroup_eq_ok hc
    have hne : c.clause ≠ .present := by
      intro hpresent
      rw [hpresent] at hstarts
      exact hshow c.group (by simp [hnode]) hstarts
    have hkept : d₂.visual = d.visual := visual_readClause hne hclause
    rw [ih (fun g hg => hshow g (List.mem_cons_of_mem _ hg)) hrest]
    exact hkept

/-- A query without `show` has no visualisation. -/
theorem visual_of_noShow {root : Group}
    (hshow : ∀ g : Group, g.toNode ∈ root.children → ¬ g.Starts .present)
    (h : ofRoot ctx root = .ok d) : d.visual = none := by
  obtain ⟨-, hread⟩ := ofRoot_eq_ok_iff.mp h
  refine visual_readEntries_of_noShow (fun g hg => ?_) hread
  rw [entries_attachExtensions] at hg
  exact hshow g (List.mem_of_mem_filter hg)

/-- Completing a draft adds hidden columns to its table and asks for values. -/
theorem results_finish {request : SearchRequest} (hd : ∀ c ∈ d.table.columns, c.visible)
    (h : d.finish ctx = .ok request) :
    ∃ columns, columns.filter (·.visible) = d.table.columns ∧
      request.results =
        results { d with table := { d.table with columns := columns } } := by
  rw [finish] at h
  split at h
  · cases h
  · obtain ⟨d₁, hhidden, hrequest⟩ := bind_eq_ok.mp h
    cases hrequest
    obtain ⟨names, -, hhides, -⟩ := hides_addHidden hhidden
    obtain ⟨hidden, happend, -, hinvisible⟩ := (hides_addOrigins d).trans hhides
    obtain ⟨columns, added, rfl⟩ := (onlyColumns_addOrigins d).trans (onlyColumns_addHidden hhidden)
    have hcolumns : columns = d.table.columns ++ hidden := happend
    have hnone : hidden.filter (·.visible) = [] :=
      List.filter_eq_nil_iff.mpr fun c hc => by simp [hinvisible c hc]
    refine ⟨columns, ?_, rfl⟩
    rw [hcolumns, List.filter_append, hnone, List.append_nil, List.filter_eq_self.mpr hd]

end

end Draft

/-- The second mapping of a visualisation is the table of the query without its hidden columns and
without its wish for values. Its parameters are looked up among the columns that are left. -/
theorem results_of_show {catalog : Catalog} {base : BaseRequest} {reference : Instant}
    {text : String} {root g : Group} {request : SearchRequest}
    (h : compile ⟨.ofCatalog catalog, base, reference⟩ text = .ok request)
    (hroot : rootOf text = .ok root) (hg : g.toNode ∈ root.children) (hshow : g.Starts .present) :
    ∃ (table : Table) (visual : Visual),
      table.extractValues = true ∧ table.visual = none ∧
      Visual.read g { table with columns := table.visibleColumns, extractValues := false } =
        .ok visual ∧
      request.results = [⟨Draft.tableId, [table], .table⟩,
        ⟨Draft.visualId, [table, { table with
          columns := table.visibleColumns, extractValues := false, visual := some visual }],
          .visual⟩] := by
  obtain ⟨root', hroot', hcompile⟩ := bind_eq_ok.mp h
  cases hroot.symm.trans (Result.ofExcept_eq_ok.mp hroot')
  obtain ⟨d, hd, hfinish⟩ := bind_eq_ok.mp hcompile
  obtain ⟨⟨hvalues, hplain⟩, t, ht, hvisual⟩ := Draft.visual_ofRoot hg hshow hd
  obtain ⟨counts, hchosen⟩ := Draft.chosen_ofRoot hd
  obtain ⟨columns, hcolumns, hresults⟩ :=
    Draft.results_finish hchosen.visible (Result.ofExcept_eq_ok.mp hfinish)
  obtain ⟨visual, hread, ht⟩ := bind_eq_ok.mp ht
  cases ht
  -- The copy is the table of the draft, which the completed table still holds.
  have hcopy : { d.table with columns := columns.filter (·.visible), extractValues := false } =
      d.table := by
    rw [hcolumns, ← hvalues]
  refine ⟨{ d.table with columns := columns, extractValues := true }, visual, rfl, hplain, ?_, ?_⟩
  · simp only [Table.visibleColumns]
    rw [hcopy]
    exact hread
  · rw [hresults, Draft.results, hvisual]
    simp only [Table.visibleColumns]
    rw [hcolumns, ← hvalues]

namespace Visual.Sample

def query : String := "from a having x=1 select b show c"

end Visual.Sample

open Visual.Sample in
theorem results_of_show_sample :
    ∃ request root, ∃ g : Group, compile .sample query = .ok request ∧ rootOf query = .ok root ∧
      g.toNode ∈ root.children ∧ g.Starts .present ∧
      ∃ (table : Table) (visual : Visual),
        table.extractValues = true ∧ table.visual = none ∧
        Visual.read g { table with columns := table.visibleColumns, extractValues := false } =
          .ok visual ∧
        request.results = [⟨Draft.tableId, [table], .table⟩,
          ⟨Draft.visualId, [table, { table with
            columns := table.visibleColumns, extractValues := false, visual := some visual }],
            .visual⟩] := by
  have hok : (compile .sample query).isOk = true := by decide +kernel
  have hshow : (rootOf query).toOption.map (fun root => Node.holds root.children .present) =
      some true := by decide +kernel
  obtain ⟨request, h⟩ := exists_eq_ok_of_isOk hok
  obtain ⟨root, hroot, hholds⟩ := Option.map_eq_some_iff.mp hshow
  obtain ⟨g, hg, hstarts⟩ := Node.holds_iff.mp hholds
  have hroot := eq_ok_of_toOption hroot
  exact ⟨request, root, g, h, hroot, hg, hstarts, results_of_show h hroot hg hstarts⟩

namespace Visual.Sample

def selected : Column :=
  { id := "b-1", name := "b", expression := "$\x7bb\x7d", visible := true, special := false }

def hidden (id name expression : String) : Column :=
  { id := id, name := name, expression := expression, visible := false, special := true }

def draft : Table :=
  { columns := [selected]
    aggregateFilter := some ⟨.and, [.term ⟨"x", .relation .equal, some "1", none⟩]⟩ }

def completed : Table :=
  { draft with
    columns := [selected, hidden "__stream_id__" "__stream_id__" "$\x7bStreamId\x7d",
      hidden "__event_id__" "__event_id__" "$\x7bEventId\x7d", hidden "__x__" "x" "$\x7bx\x7d"]
    extractValues := true }

end Visual.Sample

open Visual.Sample in
/-- The copy differs from the table in more than its visualisation. -/
theorem show_copy_incomplete :
    ∃ request table copy, compile .sample query = .ok request ∧
      request.results =
        [⟨Draft.tableId, [table], .table⟩, ⟨Draft.visualId, [table, copy], .visual⟩] ∧
      copy.extractValues = false ∧ table.extractValues = true ∧
      copy.columns.map (·.id) = ["b-1"] ∧
      table.columns.map (·.id) = ["b-1", "__stream_id__", "__event_id__", "__x__"] := by
  have hresults : (compile .sample query).toOption.map (·.results) =
      some [⟨Draft.tableId, [completed], .table⟩,
        ⟨Draft.visualId, [completed, { draft with visual := some ⟨"c", .empty⟩ }], .visual⟩] := by
    decide +kernel
  obtain ⟨request, h, heq⟩ := Option.map_eq_some_iff.mp hresults
  exact ⟨request, _, _, eq_ok_of_toOption h, heq, rfl, rfl, rfl, rfl⟩

end PipeQuery
