import PipeQuery.Proofs.Clause.Exchange

/-!
The turn of one clause in the walk over a query. Every part of a draft is written by clauses of one
kind only. So what such a part is in the end can be told from the turns of these clauses, and from
those that may come after them.
-/
namespace PipeQuery.Draft

/-- What a clause writes in a draft: each part that columns are made from belongs to one clause, and
the others leave it alone. -/
structure Frame (c : Clause) (d d' : Draft) : Prop where
  evals : c ≠ .eval → d'.evals = d.evals
  source : c ≠ .source → d'.source = d.source
  sorts : c ≠ .sort → d'.sorts = d.sorts
  groups : c ≠ .group → d'.groups = d.groups
  depth : c ≠ .group → d'.depth = d.depth
  columns : c ≠ .select → d'.table.columns = d.table.columns
  added : c ≠ .select → d'.added = d.added
  having : c ≠ .having → d'.having = d.having

namespace Frame

/-- Most clauses leave all of these parts alone. -/
theorem of_eq {c : Clause} {d d' : Draft} (hevals : d'.evals = d.evals)
    (hsource : d'.source = d.source) (hsorts : d'.sorts = d.sorts) (hgroups : d'.groups = d.groups)
    (hdepth : d'.depth = d.depth) (hcolumns : d'.table.columns = d.table.columns)
    (hadded : d'.added = d.added) (hhaving : d'.having = d.having) : Frame c d d' :=
  ⟨fun _ => hevals, fun _ => hsource, fun _ => hsorts, fun _ => hgroups, fun _ => hdepth,
    fun _ => hcolumns, fun _ => hadded, fun _ => hhaving⟩

private theorem of_onlyColumns {d d' : Draft} (h : OnlyColumns d d') : Frame .select d d' := by
  obtain ⟨columns, added, rfl⟩ := h
  exact ⟨fun _ => rfl, fun _ => rfl, fun _ => rfl, fun _ => rfl, fun _ => rfl,
    fun h => absurd rfl h, fun h => absurd rfl h, fun _ => rfl⟩

end Frame

section
variable {ctx : Context} {d d' : Draft}

private theorem frame_readPlain {clause : Clause} {g : Group}
    (h : d.readPlain ctx clause g = .ok d') : Frame clause d d' := by
  cases clause with
  | source =>
    obtain ⟨doc, -, hd⟩ := bind_eq_ok.mp h
    cases hd
    exact ⟨fun _ => rfl, fun h => absurd rfl h, fun _ => rfl, fun _ => rfl, fun _ => rfl, fun _ => rfl,
      fun _ => rfl, fun _ => rfl⟩
  | eval =>
    obtain ⟨_, -, hrest⟩ := bind_eq_ok.mp h
    obtain ⟨e, -, hd⟩ := bind_eq_ok.mp hrest
    cases hd
    exact ⟨fun h => absurd rfl h, fun _ => rfl, fun _ => rfl, fun _ => rfl, fun _ => rfl, fun _ => rfl,
      fun _ => rfl, fun _ => rfl⟩
  | sort =>
    obtain ⟨keys, -, hd⟩ := bind_eq_ok.mp h
    cases hd
    rw [addSorts_eq]
    exact ⟨fun _ => rfl, fun _ => rfl, fun h => absurd rfl h, fun _ => rfl, fun _ => rfl, fun _ => rfl,
      fun _ => rfl, fun _ => rfl⟩
  | group =>
    obtain ⟨fields, -, hd⟩ := bind_eq_ok.mp h
    cases hd
    exact ⟨fun _ => rfl, fun _ => rfl, fun _ => rfl, fun h => absurd rfl h, fun h => absurd rfl h,
      fun _ => rfl, fun _ => rfl, fun _ => rfl⟩
  | select => exact .of_onlyColumns (onlyColumns_readSelect h)
  | window | limit | present =>
    obtain ⟨_, -, hd⟩ := bind_eq_ok.mp h
    cases hd
    exact .of_eq rfl rfl rfl rfl rfl rfl rfl rfl
  | restrict | filter | having =>
    cases h
    exact .of_eq rfl rfl rfl rfl rfl rfl rfl rfl

private theorem frame_readClause {c : ClauseGroup} {extensions : List Extension}
    (h : d.readClause ctx c extensions = .ok d') : Frame c.clause d d' := by
  rw [readClause] at h
  split at h
  · obtain ⟨_, -, hd⟩ := bind_eq_ok.mp h
    cases hd
    exact .of_eq rfl rfl rfl rfl rfl rfl rfl rfl
  · obtain ⟨_, -, hd⟩ := bind_eq_ok.mp h
    cases hd
    exact .of_eq rfl rfl rfl rfl rfl rfl rfl rfl
  next hc =>
    obtain ⟨_, -, hd⟩ := bind_eq_ok.mp h
    cases hd
    exact ⟨fun _ => rfl, fun _ => rfl, fun _ => rfl, fun _ => rfl, fun _ => rfl, fun _ => rfl,
      fun _ => rfl, fun h => absurd hc h⟩
  · exact frame_readPlain (readAlone_eq_ok_iff.mp h).1

end

structure Owns {α : Type} (x : Clause) (part : Draft → α) : Prop where
  frame : ∀ {c d d'}, Frame c d d' → c ≠ x → part d' = part d
  past : ∀ (d : Draft) (consumed : List Clause), part { d with consumed := consumed } = part d

theorem owns_evals : Owns .eval Draft.evals := ⟨Frame.evals, fun _ _ => rfl⟩

theorem owns_source : Owns .source Draft.source := ⟨Frame.source, fun _ _ => rfl⟩

theorem owns_sorts : Owns .sort Draft.sorts := ⟨Frame.sorts, fun _ _ => rfl⟩

theorem owns_groups : Owns .group Draft.groups := ⟨Frame.groups, fun _ _ => rfl⟩

theorem owns_depth : Owns .group Draft.depth := ⟨Frame.depth, fun _ _ => rfl⟩

theorem owns_columns : Owns .select (·.table.columns) := ⟨Frame.columns, fun _ _ => rfl⟩

theorem owns_added : Owns .select Draft.added := ⟨Frame.added, fun _ _ => rfl⟩

theorem owns_having : Owns .having Draft.having := ⟨Frame.having, fun _ _ => rfl⟩

section
variable {ctx : Context} {d d' : Draft} {α : Type} {x : Clause} {part : Draft → α}

/-- A step of the walk leaves a part alone that belongs to another clause. -/
theorem Owns.readEntry (h : Owns x part) {entry : Node × List Extension} {c : ClauseGroup}
    (hread : d.readEntry ctx entry = .ok d') (hc : entry.1.clauseGroup = .ok c)
    (hne : c.clause ≠ x) : part d' = part d := by
  obtain ⟨c', d₁, hc', -, hclause, rfl⟩ := readEntry_eq_ok_iff.mp hread
  cases hc.symm.trans hc'
  rw [h.past, h.frame (frame_readClause hclause) hne]

/-- Once a clause has been read after which `x` may not come, the part stays as it is. -/
theorem Owns.readEntries (h : Owns x part) {y : Clause} (hxy : y ∉ x.validAfter)
    {entries : List (Node × List Extension)} (hy : y ∈ d.consumed)
    (hread : Draft.readEntries ctx d entries = .ok d') : part d' = part d := by
  induction entries generalizing d with
  | nil =>
    cases hread
    rfl
  | cons entry entries ih =>
    obtain ⟨d₁, hentry, hrest⟩ := bind_eq_ok.mp hread
    obtain ⟨c, d₂, hc, horder, hclause, hd₁⟩ := readEntry_eq_ok_iff.mp hentry
    have hne : c.clause ≠ x := by
      rintro rfl
      exact hxy (((Clause.checkOrder_eq_ok_iff _ _ _).mp horder).2 y hy)
    have hy₁ : y ∈ d₁.consumed := by
      rw [hd₁, (step_readClause hclause).consumed]
      exact List.mem_append_left _ hy
    rw [ih hy₁ hrest, h.readEntry hentry hc hne]

/-- A walk without a clause of the kind leaves the part as it was. -/
theorem Owns.of_notMem (h : Owns x part) {entries : List (Node × List Extension)}
    (hread : Draft.readEntries ctx d entries = .ok d') (hx : x ∉ d'.consumed) :
    part d' = part d ∧ x ∉ d.consumed := by
  induction entries generalizing d with
  | nil =>
    cases hread
    exact ⟨rfl, hx⟩
  | cons entry entries ih =>
    obtain ⟨d₁, hentry, hrest⟩ := bind_eq_ok.mp hread
    obtain ⟨hpart, hx₁⟩ := ih hrest
    obtain ⟨c, d₂, hc, -, hclause, hd₁⟩ := readEntry_eq_ok_iff.mp hentry
    rw [hd₁, (step_readClause hclause).consumed] at hx₁
    rw [List.mem_append, not_or] at hx₁
    obtain ⟨hx₀, hne⟩ := hx₁
    refine ⟨?_, hx₀⟩
    rw [hpart, h.readEntry hentry hc fun heq => hne (by simp [heq])]

end

/-- The clauses that a walk notes are those that its nodes start. -/
theorem mem_consumed_readEntries {ctx : Context} {d d' : Draft} {x : Clause}
    {entries : List (Node × List Extension)} (hread : readEntries ctx d entries = .ok d')
    (hx : x ∈ d'.consumed) :
    x ∈ d.consumed ∨ ∃ g : Group, g.toNode ∈ entries.map (·.1) ∧ g.Starts x := by
  induction entries generalizing d with
  | nil =>
    cases hread
    exact .inl hx
  | cons entry entries ih =>
    obtain ⟨d₁, hentry, hrest⟩ := bind_eq_ok.mp hread
    obtain ⟨c, d₂, hc, -, hstep, rfl⟩ := readEntry_eq_ok hentry
    rcases ih hrest with hmem | ⟨g, hg, hstarts⟩
    · rcases List.mem_append.mp hmem with hmem | hmem
      · exact .inl hmem
      · cases List.mem_singleton.mp hmem
        obtain ⟨hnode, hstarts⟩ := Node.clauseGroup_eq_ok hc
        exact .inr ⟨c.group, by simp [hnode], hstarts⟩
    · exact .inr ⟨g, List.mem_cons_of_mem _ hg, hstarts⟩

/-- The turn of a clause in the walk over a query: the draft before it, the draft after it, and the
draft at the end. -/
structure Turn (ctx : Context) (x : Clause) (g : Group) (extensions : List Extension)
    (d₀ d₁ d : Draft) : Prop where
  before : ∃ front, readEntries ctx {} front = .ok d₀
  order : ∀ seen ∈ d₀.consumed, seen ∈ x.validAfter
  reads : ∃ place, d₀.readClause ctx ⟨x, place, g⟩ extensions = .ok d₁
  after : ∃ back, readEntries ctx { d₁ with consumed := d₁.consumed ++ [x] } back = .ok d

section
variable {ctx : Context} {x y : Clause} {g : Group} {extensions : List Extension} {d₀ d₁ d : Draft}

/-- A group that starts a clause is an entry of the walk, with the pipes after it. -/
theorem exists_entry {root : Group} (hg : g.toNode ∈ root.children) (hx : g.Starts x) :
    ∃ extensions, (g.toNode, extensions) ∈ (attachExtensions root.children).2 := by
  have hmem : g.toNode ∈ (attachExtensions root.children).2.map (·.1) := by
    rw [entries_attachExtensions]
    exact List.mem_filter.mpr ⟨hg, by rw [Node.extension?_of_starts hx]; rfl⟩
  obtain ⟨⟨n, extensions⟩, hentry, rfl⟩ := List.mem_map.mp hmem
  exact ⟨extensions, hentry⟩

/-- Every entry of a walk has its turn. -/
theorem exists_turn {root : Group} (h : ofRoot ctx root = .ok d)
    (hentry : (g.toNode, extensions) ∈ (attachExtensions root.children).2) (hx : g.Starts x) :
    ∃ d₀ d₁, Turn ctx x g extensions d₀ d₁ d := by
  obtain ⟨-, hread⟩ := ofRoot_eq_ok_iff.mp h
  obtain ⟨front, back, hsplit⟩ := List.append_of_mem hentry
  rw [hsplit, readEntries_append] at hread
  obtain ⟨d₀, hfront, hrest⟩ := bind_eq_ok.mp hread
  obtain ⟨d₂, hd₂, hback⟩ := bind_eq_ok.mp hrest
  obtain ⟨c, d₁, hc, horder, hclause, rfl⟩ := readEntry_eq_ok_iff.mp hd₂
  obtain ⟨place, hplace⟩ := Node.exists_clauseGroup hx
  cases hplace.symm.trans hc
  exact ⟨d₀, d₁, ⟨front, hfront⟩, ((Clause.checkOrder_eq_ok_iff _ _ _).mp horder).2,
    ⟨place, hclause⟩, back, hback⟩

variable {α : Type} {part : Draft → α}

/-- A clause that is not repeated finds its part as it was at the start. -/
theorem Turn.part_before (t : Turn ctx x g extensions d₀ d₁ d) (h : Owns x part)
    (honce : x ∉ x.validAfter) : part d₀ = part {} := by
  obtain ⟨front, hfront⟩ := t.before
  exact (h.of_notMem hfront fun hmem => honce (t.order x hmem)).1

/-- The part of a clause that may not come after this one is in the end as this one leaves it. -/
theorem Turn.part_after (t : Turn ctx x g extensions d₀ d₁ d) (h : Owns y part)
    (hy : x ∉ y.validAfter) : part d = part d₁ := by
  obtain ⟨back, hback⟩ := t.after
  rw [h.readEntries hy (by simp) hback, h.past]

/-- The part of another clause that may not come after this one is in the end as this one finds
it. -/
theorem Turn.part_found (t : Turn ctx x g extensions d₀ d₁ d) (h : Owns y part)
    (hy : x ∉ y.validAfter) (hne : x ≠ y) : part d = part d₀ := by
  obtain ⟨place, hclause⟩ := t.reads
  rw [t.part_after h hy, h.frame (frame_readClause hclause) hne]

/-- A part is as it was at the start if no group starts its clause. -/
theorem Owns.of_noClause (h : Owns x part) {root : Group} (hd : ofRoot ctx root = .ok d)
    (hx : ∀ g : Group, g.toNode ∈ root.children → ¬ g.Starts x) : part d = part {} := by
  obtain ⟨-, hread⟩ := ofRoot_eq_ok_iff.mp hd
  refine (h.of_notMem hread fun hmem => ?_).1
  rcases mem_consumed_readEntries hread hmem with hnil | ⟨g, hg, hstarts⟩
  · cases hnil
  · rw [entries_attachExtensions] at hg
    exact hx g (List.mem_of_mem_filter hg) hstarts

end

end PipeQuery.Draft
