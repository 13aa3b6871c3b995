import PipeQuery.Proofs.Clause.Entry
import PipeQuery.Proofs.Clause.Order

/-!
The data source of a query. The order of clauses makes `from` the first of them and the only one of
its kind, so looking at the first group of a query finds the source that compiling the query finds.
-/
namespace PipeQuery

private theorem SourceClause.readFirst_of_read {services : Services} {clause : Group} {doc : DocRef}
    (h : read services clause = .ok doc) : readFirst services clause = .ok doc := by
  rw [read] at h
  split at h
  · cases h
  · exact h

/-- No command stands for `from`, so a group that starts it does so with the keyword. -/
theorem Group.Starts.tokenKind_eq {g : Group} (h : g.Starts .source) :
    g.tokenKind = .clause .source := by
  cases h with
  | keyword t hkind hclause => rw [Group.tokenKind, hkind, GroupKind.tokenKind, hclause]
  | command bar word command hkind hname hclause => cases command <;> cases hclause

namespace Draft
variable {ctx : Context} {d d' : Draft}

private theorem source_of_finish {request : SearchRequest} (h : d.finish ctx = .ok request) :
    d.source = some request.query.dataSource := by
  rw [finish] at h
  split at h
  · cases h
  next source hsource =>
    obtain ⟨d₁, -, hrequest⟩ := bind_eq_ok.mp h
    cases hrequest
    exact hsource

/-- The first clause is a `from`, and gives its source. -/
theorem source_first {entry : Node × List Extension} (h : readEntry ctx {} entry = .ok d) :
    ∃ g doc, entry.1 = g.toNode ∧ g.Starts .source ∧
      SourceClause.read ctx.services g = .ok doc ∧ d.source = some doc ∧
      .source ∈ d.consumed := by
  obtain ⟨c, d₁, hc, horder, hstep, rfl⟩ := readEntry_eq_ok h
  have hsource : c.clause = .source := by
    have hfirst := ((Clause.checkOrder_eq_ok_iff _ _ _).mp horder).1
    simpa using hfirst
  have hread := hstep.source
  rw [if_pos hsource] at hread
  obtain ⟨doc, hdoc, hd⟩ := hread
  obtain ⟨hnode, hstarts⟩ := Node.clauseGroup_eq_ok hc
  exact ⟨c.group, doc, hnode, hsource ▸ hstarts, hdoc, hd, by simp [hsource]⟩

/-- A clause after `from` leaves the source alone. -/
theorem source_readEntry {entry : Node × List Extension} (h : d.readEntry ctx entry = .ok d')
    (hd : .source ∈ d.consumed) : d'.source = d.source ∧ .source ∈ d'.consumed := by
  obtain ⟨c, d₁, -, horder, hstep, rfl⟩ := readEntry_eq_ok h
  have hsource : c.clause ≠ .source := by
    intro hc
    have hvalid := ((Clause.checkOrder_eq_ok_iff _ _ _).mp horder).2 _ hd
    rw [hc] at hvalid
    cases hvalid
  have hread := hstep.source
  rw [if_neg hsource] at hread
  exact ⟨hread, List.mem_append_left _ hd⟩

private theorem source_readEntries {entries : List (Node × List Extension)}
    (h : readEntries ctx d entries = .ok d') (hd : .source ∈ d.consumed) :
    d'.source = d.source := by
  induction entries generalizing d with
  | nil =>
    cases h
    rfl
  | cons entry entries ih =>
    obtain ⟨d₁, hentry, hrest⟩ := bind_eq_ok.mp h
    obtain ⟨hsource, hconsumed⟩ := source_readEntry hentry hd
    rw [ih hrest hconsumed, hsource]

/-- The source of a query is the one that its first node names. -/
theorem source_ofRoot {root : Group} {doc : DocRef} (h : ofRoot ctx root = .ok d)
    (hd : d.source = some doc) :
    ∃ g : Group, root.children.head? = some g.toNode ∧ g.Starts .source ∧
      SourceClause.read ctx.services g = .ok doc := by
  rw [ofRoot] at h
  split at h
  next => cases h
  next entries hattach =>
    cases entries with
    | nil =>
      cases h
      cases hd
    | cons entry entries =>
      obtain ⟨d₁, hentry, hrest⟩ := bind_eq_ok.mp h
      obtain ⟨g, doc', hnode, hstarts, hread, hd₁, hconsumed⟩ := source_first hentry
      rw [source_readEntries hrest hconsumed, hd₁] at hd
      cases hd
      exact ⟨g, hnode ▸ head_of_attachExtensions hattach, hstarts, hread⟩

end Draft

/-- The lenient reading looks at the first group only. -/
theorem dataSourceOnly_of_root {services : Services} {text : String} {root g : Group}
    (hroot : rootOf text = .ok root) (hhead : root.children.head? = some g.toNode)
    (hg : g.tokenKind = .clause .source) :
    dataSourceOnly services text = SourceClause.readFirst services g := by
  obtain ⟨rest, hchildren⟩ := List.head?_eq_some_iff.mp hhead
  have hgroup : g.toNode.group? = some g := rfl
  rw [dataSourceOnly, hroot]
  simp [bind, Except.bind, hchildren, hgroup, hg]

/-- If a query compiles, then the lenient reading of its data source succeeds on the same text, and
gives the data source of the request. -/
theorem dataSourceOnly_of_compile {ctx : Context} {text : String} {request : SearchRequest}
    (h : compile ctx text = .ok request) :
    dataSourceOnly ctx.services text = .ok request.query.dataSource := by
  obtain ⟨root, hroot, hcompile⟩ := bind_eq_ok.mp h
  obtain ⟨d, hd, hfinish⟩ := bind_eq_ok.mp hcompile
  have hsource := Draft.source_of_finish (Result.ofExcept_eq_ok.mp hfinish)
  obtain ⟨g, hhead, hstarts, hread⟩ := Draft.source_ofRoot hd hsource
  rw [dataSourceOnly_of_root (Result.ofExcept_eq_ok.mp hroot) hhead hstarts.tokenKind_eq]
  exact SourceClause.readFirst_of_read hread

namespace SourceClause.Sample

def query : String := "from 'a b'|limit 5"

def context : Context := ⟨.ofCatalog { dataSources := [⟨"View", "u", "A B", []⟩] }, {}, ⟨0, 0⟩⟩

end SourceClause.Sample

open SourceClause.Sample in
theorem dataSourceOnly_of_compile_sample :
    ∃ request, compile context query = .ok request ∧
      dataSourceOnly context.services query = .ok request.query.dataSource := by
  have hok : (compile context query).isOk = true := by decide +kernel
  obtain ⟨request, h⟩ := exists_eq_ok_of_isOk hok
  exact ⟨request, h, dataSourceOnly_of_compile h⟩

end PipeQuery
