import PipeQuery.Proofs.Error.Located

/-!
What groups cover. A group starts with the span of some of its tokens and is widened by the spans
of its children. Whichever of them come first, the outcome is the hull of all tokens of the group;
since these stand in the order of the text, it reaches from the first of them to the last.
-/
namespace PipeQuery

structure Span.Hull (s : Span) (ts : List Token) : Prop where
  covers : ∀ t ∈ ts, s.start ≤ t.span.start ∧ t.span.stop ≤ s.stop
  start : ∃ t ∈ ts, t.span.start = s.start
  stop : ∃ t ∈ ts, t.span.stop = s.stop

namespace Span.Hull
variable {s r : Span} {ts us : List Token}

theorem singleton (t : Token) : t.span.Hull [t] := by
  constructor <;> simp

theorem congr (h : s.Hull ts) (hmem : ∀ t, t ∈ us ↔ t ∈ ts) : s.Hull us := by
  obtain ⟨hcovers, ⟨t, ht, hstart⟩, ⟨u, hu, hstop⟩⟩ := h
  refine ⟨?_, ⟨t, (hmem t).mpr ht, hstart⟩, ⟨u, (hmem u).mpr hu, hstop⟩⟩
  intro v hv
  exact hcovers v ((hmem v).mp hv)

theorem join (hs : s.Hull ts) (hr : r.Hull us) : (s.join r).Hull (ts ++ us) := by
  obtain ⟨hcovers, ⟨t, ht, hstart⟩, ⟨u, hu, hstop⟩⟩ := hs
  obtain ⟨hcovers', ⟨t', ht', hstart'⟩, ⟨u', hu', hstop'⟩⟩ := hr
  refine ⟨?_, ?_, ?_⟩
  · intro v hv
    simp only [Span.join]
    rcases List.mem_append.mp hv with hv | hv
    · have hv := hcovers v hv
      omega
    · have hv := hcovers' v hv
      omega
  · simp only [Span.join]
    rcases Nat.le_total s.start r.start with hle | hle
    · exact ⟨t, List.mem_append_left _ ht, by omega⟩
    · exact ⟨t', List.mem_append_right _ ht', by omega⟩
  · simp only [Span.join]
    rcases Nat.le_total s.stop r.stop with hle | hle
    · exact ⟨u', List.mem_append_right _ hu', by omega⟩
    · exact ⟨u, List.mem_append_left _ hu, by omega⟩

theorem joinAll (h : s.Hull ts) {ns : List Node} (hns : ∀ n ∈ ns, n.span.Hull n.flatten) :
    (s.joinAll (ns.map (·.span))).Hull (ts ++ Node.flattenList ns) := by
  induction ns generalizing s ts with
  | nil => simpa [Node.flattenList, Span.joinAll] using h
  | cons n ns ih =>
    obtain ⟨hn, hns⟩ := List.forall_mem_cons.mp hns
    have hall := ih (h.join hn) hns
    rw [List.append_assoc] at hall
    exact hall

end Span.Hull

namespace Span.Tile
variable {start stop : Nat} {ss : List Span}

theorem start_le (h : Tile start stop ss) : ∀ s ∈ ss, start ≤ s.start := by
  induction h with
  | nil n => simp
  | @cons s ss stop nonempty rest ih =>
    intro r hr
    rcases List.mem_cons.mp hr with rfl | hr
    · exact Nat.le_refl _
    · have hle := ih r hr
      omega

private theorem pairwise (h : Tile start stop ss) : ss.Pairwise fun s r => s.stop ≤ r.start := by
  induction h with
  | nil n => exact .nil
  | cons nonempty rest ih => exact .cons rest.start_le ih

end Span.Tile

namespace Token

structure InOrder (text : String) (ts : List Token) : Prop where
  pairwise : ts.Pairwise fun t u => t.span.stop ≤ u.span.start
  placed : ∀ t ∈ ts, t.Placed text

namespace InOrder
variable {text : String} {ts us : List Token}

theorem sublist (h : InOrder text ts) (hsub : us.Sublist ts) : InOrder text us :=
  ⟨h.pairwise.sublist hsub, fun t ht => h.placed t (hsub.subset ht)⟩

theorem nonempty (h : InOrder text ts) {t : Token} (ht : t ∈ ts) : t.span.start < t.span.stop :=
  (h.placed t ht).2.1

private theorem first_le {t : Token} (h : InOrder text (t :: ts)) :
    ∀ u ∈ t :: ts, t.span.start ≤ u.span.start := by
  have hpairs := (List.pairwise_cons.mp h.pairwise).1
  have ht := h.nonempty List.mem_cons_self
  intro u hu
  rcases List.mem_cons.mp hu with rfl | hu
  · exact Nat.le_refl _
  · have hle := hpairs u hu
    omega

private theorem le_last {t : Token} (h : InOrder text (ts ++ [t])) :
    ∀ u ∈ ts ++ [t], u.span.stop ≤ t.span.stop := by
  have hpairs := (List.pairwise_append.mp h.pairwise).2.2
  have ht := h.nonempty (List.mem_append_right ts List.mem_cons_self)
  intro u hu
  rcases List.mem_append.mp hu with hu | hu
  · have hle := hpairs u hu t List.mem_cons_self
    omega
  · cases List.mem_singleton.mp hu
    exact Nat.le_refl _

/-- The hull of tokens in order reaches from the first to the last. -/
theorem hull_eq (h : InOrder text ts) {s : Span} (hs : s.Hull ts) :
    ∃ first last, ts.head? = some first ∧ ts.getLast? = some last ∧
      s = ⟨first.span.start, last.span.stop⟩ := by
  obtain ⟨hcovers, ⟨t, ht, hstart⟩, ⟨u, hu, hstop⟩⟩ := hs
  have hne : ts ≠ [] := List.ne_nil_of_mem ht
  obtain ⟨first, rest, hfirst⟩ := List.exists_cons_of_ne_nil hne
  obtain ⟨front, last, hlast⟩ : ∃ front last, ts = front ++ [last] :=
    ⟨ts.dropLast, ts.getLast hne, (List.dropLast_concat_getLast hne).symm⟩
  refine ⟨first, last, by simp [hfirst], by simp [hlast], ?_⟩
  have hle : first.span.start ≤ t.span.start := by
    subst hfirst
    exact h.first_le t ht
  have hge : u.span.stop ≤ last.span.stop := by
    subst hlast
    exact h.le_last u hu
  have hcoversFirst := (hcovers first (by simp [hfirst])).1
  have hcoversLast := (hcovers last (by simp [hlast])).2
  obtain ⟨start, stop⟩ := s
  simp only [Span.mk.injEq] at *
  omega

/-- The first and the last of tokens in order make up the hull of all. -/
theorem hull_join {first last : Token} (mid : List Token)
    (h : InOrder text (first :: mid ++ [last])) :
    (first.span.join last.span).Hull (first :: mid ++ [last]) := by
  have hfirst := h.first_le
  have hlast := h.le_last
  have hmemFirst : first ∈ first :: mid ++ [last] := by simp
  have hmemLast : last ∈ first :: mid ++ [last] := by simp
  have hstart := hfirst last hmemLast
  have hstop := hlast first hmemFirst
  refine ⟨?_, ⟨first, hmemFirst, ?_⟩, ⟨last, hmemLast, ?_⟩⟩
  · intro t ht
    have hle := hfirst t ht
    have hge := hlast t ht
    simp only [Span.join]
    omega
  · simp only [Span.join]
    omega
  · simp only [Span.join]
    omega

private theorem hull_extent (h : InOrder text ts) (hne : ts ≠ []) : (extent ts).Hull ts := by
  obtain ⟨first, rest, rfl⟩ := List.exists_cons_of_ne_nil hne
  rcases List.eq_nil_or_concat rest with rfl | ⟨mid, last, rfl⟩
  · have hself := (Span.Hull.singleton first).join (.singleton first)
    exact hself.congr (by simp)
  · rw [List.concat_eq_append] at h ⊢
    have hextent : extent (first :: (mid ++ [last])) = first.span.join last.span := by
      simp [extent]
    rw [hextent]
    exact h.hull_join mid

end InOrder

end Token

private theorem Lexer.inOrder_meaningful (text : String) :
    Token.InOrder text (Token.meaningful (tokens text)) := by
  refine ⟨?_, fun t => placed_of_mem_meaningful⟩
  have htile := (partition_layout (covers_pieces text.toList)).1
  rw [← tokens] at htile
  exact (List.pairwise_map.mp htile.pairwise).sublist List.filter_sublist

/-- What a group is made from before its children widen it. -/
def GroupKind.span : GroupKind → Span
  | .root => ⟨0, 0⟩
  | .bracket opening closing => opening.span.join closing.span
  | .function name _ closing => name.span.join closing.span
  | .pipe bar command => bar.span.join command.span
  | .clause keyword => keyword.span

namespace GroupKind

private theorem mem_wrap {kind : GroupKind} {inside : List Token} {t : Token} :
    t ∈ kind.wrap inside ↔ t ∈ kind.wrap [] ++ inside := by
  cases kind <;> simp [wrap] <;> grind

private theorem inside_sublist_wrap (kind : GroupKind) (inside : List Token) :
    inside.Sublist (kind.wrap inside) := by
  cases kind with
  | root => exact .refl inside
  | bracket opening closing => exact (List.sublist_append_left ..).cons opening
  | function name opening closing =>
    exact ((List.sublist_append_left ..).cons opening).cons name
  | pipe bar command => exact (List.Sublist.refl inside).cons command |>.cons bar
  | clause keyword => exact List.sublist_cons_self ..

private theorem frame_sublist_wrap (kind : GroupKind) (inside : List Token) :
    (kind.wrap []).Sublist (kind.wrap inside) := by
  cases kind <;> simp [wrap]

private theorem hull_span {text : String} {kind : GroupKind} (hkind : kind ≠ .root)
    (h : Token.InOrder text (kind.wrap [])) : kind.span.Hull (kind.wrap []) := by
  cases kind with
  | root => exact absurd rfl hkind
  | bracket opening closing => exact h.hull_join []
  | function name opening closing => exact h.hull_join [opening]
  | pipe bar command => exact h.hull_join []
  | clause keyword => exact .singleton keyword

end GroupKind

inductive Node.Covered (text : String) : Node → Prop where
  | token (t : Token) : Covered text (.token t)
  | group {kind : GroupKind} {span : Span} {children : List Node} (framed : kind ≠ .root)
      (spans : span = kind.span.joinAll (children.map (·.span)))
      (inside : ∀ n ∈ children, Covered text n) : Covered text (.group kind text span children)

namespace Node
variable {text : String}

private theorem flatten_sublist {ns : List Node} {n : Node} (hn : n ∈ ns) :
    n.flatten.Sublist (flattenList ns) := by
  induction ns with
  | nil => cases hn
  | cons m ns ih =>
    rcases List.mem_cons.mp hn with rfl | hn
    · exact List.sublist_append_left ..
    · exact (ih hn).trans (List.sublist_append_right ..)

/-- The span of a group is the hull of its tokens. -/
theorem Covered.hull {n : Node} (h : n.Covered text) (ho : Token.InOrder text n.flatten) :
    n.span.Hull n.flatten := by
  induction h with
  | token t => exact .singleton t
  | @group kind span children framed spans inside ih =>
    have hframe := ho.sublist (kind.frame_sublist_wrap (flattenList children))
    have hinside := ho.sublist (kind.inside_sublist_wrap (flattenList children))
    have hchildren : ∀ n ∈ children, n.span.Hull n.flatten := fun n hn =>
      ih n hn (hinside.sublist (flatten_sublist hn))
    have hjoined := (kind.hull_span framed hframe).joinAll hchildren
    rw [← spans] at hjoined
    exact hjoined.congr fun t => GroupKind.mem_wrap

end Node

private theorem Group.covered_cover {text : String} (kind : GroupKind) (framed : kind ≠ .root)
    {children : List Node} (h : ∀ n ∈ children, n.Covered text) :
    (cover kind text kind.span children).toNode.Covered text :=
  .group framed rfl h

private theorem Opening.covered_close {text : String} {o : Opening}
    (ho : ∀ t ∈ o.tokens, t.source = text) (closing : Token) {children : List Node}
    (h : ∀ n ∈ children, n.Covered text) : (o.close closing children).Covered text := by
  cases o with
  | bracket opening =>
    rw [Opening.close, ho opening (by simp [Opening.tokens])]
    exact Group.covered_cover (.bracket opening closing) (by simp) h
  | function name opening =>
    rw [Opening.close, ho name (by simp [Opening.tokens])]
    exact Group.covered_cover (.function name opening closing) (by simp) h

namespace Level
variable {text : String}

structure Covered (text : String) (l : Level) : Prop where
  done : ∀ n ∈ l.done, n.Covered text
  current : ∀ c, l.current = some c → c.kind ≠ .root ∧ c.source = text ∧ c.span = c.kind.span ∧
    ∀ n ∈ c.children, n.Covered text

private theorem covered_empty : Covered text {} := by
  constructor
  · intro n hn
    cases hn
  · intro c hc
    cases hc

namespace Covered
variable {l : Level}

theorem add (h : l.Covered text) {n : Node} (hn : n.Covered text) : (l.add n).Covered text := by
  obtain ⟨done, current⟩ := l
  cases current with
  | none =>
    refine ⟨List.forall_mem_append.mpr ⟨h.done, List.forall_mem_singleton.mpr hn⟩, ?_⟩
    intro c hc
    cases hc
  | some c =>
    refine ⟨h.done, ?_⟩
    rintro _ ⟨⟩
    obtain ⟨hkind, hsource, hspan, hinside⟩ := h.current c rfl
    refine ⟨hkind, hsource, hspan, ?_⟩
    exact List.forall_mem_append.mpr ⟨hinside, List.forall_mem_singleton.mpr hn⟩

theorem nodes (h : l.Covered text) : ∀ n ∈ l.nodes, n.Covered text := by
  obtain ⟨done, current⟩ := l
  cases current with
  | none => exact h.done
  | some c =>
    obtain ⟨hkind, hsource, hspan, hinside⟩ := h.current c rfl
    have hclosed : c.close.Covered text := by
      rw [OpenClause.close, hsource, hspan]
      exact Group.covered_cover c.kind hkind hinside
    exact List.forall_mem_append.mpr ⟨h.done, List.forall_mem_singleton.mpr hclosed⟩

theorem start (h : l.Covered text) {kind : GroupKind} {source : String} (hkind : kind ≠ .root)
    (hsource : source = text) : (l.start ⟨kind, source, kind.span, []⟩).Covered text := by
  refine ⟨h.nodes, ?_⟩
  rintro _ ⟨⟩
  exact ⟨hkind, hsource, rfl, by simp⟩

end Covered

/-- Every span that a reading makes is covered. -/
theorem Reads.covered {outer : List (Opening × Level)} {level : Level} {ts : List Token}
    {ns : List Node} (h : Reads outer level ts ns) (hlevel : level.Covered text)
    (houter : ∀ o ∈ outer, (∀ t ∈ o.1.tokens, t.source = text) ∧ o.2.Covered text)
    (hts : ∀ t ∈ ts, t.source = text) : ∀ n ∈ ns, n.Covered text := by
  induction h with
  | done level => exact hlevel.nodes
  | @close opening around outer level t ts ns kind rest ih =>
    obtain ⟨⟨hopening, haround⟩, houter⟩ := List.forall_mem_cons.mp houter
    apply ih (haround.add (Opening.covered_close hopening t hlevel.nodes)) houter
    exact (List.forall_mem_cons.mp hts).2
  | @pipe outer level t c ts ns kind command rest ih =>
    obtain ⟨ht, hts⟩ := List.forall_mem_cons.mp hts
    apply ih (hlevel.start (by simp) ht) houter
    exact (List.forall_mem_cons.mp hts).2
  | @function outer level t b ts ns kind bracket rest ih =>
    obtain ⟨ht, hts⟩ := List.forall_mem_cons.mp hts
    obtain ⟨hb, hts⟩ := List.forall_mem_cons.mp hts
    apply ih covered_empty ?_ hts
    exact List.forall_mem_cons.mpr ⟨⟨by simp [Opening.tokens, ht, hb], hlevel⟩, houter⟩
  | @bracket outer level t ts ns kind rest ih =>
    obtain ⟨ht, hts⟩ := List.forall_mem_cons.mp hts
    apply ih covered_empty ?_ hts
    exact List.forall_mem_cons.mpr ⟨⟨by simp [Opening.tokens, ht], hlevel⟩, houter⟩
  | @clause level t ts ns kind rest ih =>
    obtain ⟨ht, hts⟩ := List.forall_mem_cons.mp hts
    exact ih (hlevel.start (by simp) ht) houter hts
  | @leaf outer level t ts ns leaf rest ih =>
    exact ih (hlevel.add (.token t)) houter (List.forall_mem_cons.mp hts).2

end Level

mutual

def Node.groups : Node → List Group
  | .token _ => []
  | .group kind source span children =>
    ⟨kind, source, span, children⟩ :: Node.groupsList children

def Node.groupsList : List Node → List Group
  | [] => []
  | n :: ns => n.groups ++ Node.groupsList ns

end

def Group.groups (g : Group) : List Group := g.toNode.groups

private theorem Node.exists_of_mem_groupsList {ns : List Node} {g : Group}
    (h : g ∈ Node.groupsList ns) : ∃ n ∈ ns, g ∈ n.groups := by
  induction ns with
  | nil => cases h
  | cons n ns ih =>
    rcases List.mem_append.mp h with h | h
    · exact ⟨n, List.mem_cons_self, h⟩
    · obtain ⟨m, hm, hg⟩ := ih h
      exact ⟨m, List.mem_cons_of_mem _ hm, hg⟩

structure Group.Laid (text : String) (g : Group) : Prop where
  source : g.source = text
  inside : ∀ n ∈ g.children, n.Covered text
  inOrder : Token.InOrder text g.flatten
  hull : g.span.Hull g.flatten

private theorem Node.Covered.laid {text : String} {n : Node} (h : n.Covered text)
    (ho : Token.InOrder text n.flatten) : ∀ g ∈ n.groups, g.Laid text := by
  induction h with
  | token t => simp [Node.groups]
  | @group kind span children framed spans inside ih =>
    intro g hg
    rcases List.mem_cons.mp hg with rfl | hg
    · exact ⟨rfl, inside, ho, (Node.Covered.group framed spans inside).hull ho⟩
    · obtain ⟨n, hn, hg⟩ := exists_of_mem_groupsList hg
      have hinside := ho.sublist (kind.inside_sublist_wrap (flattenList children))
      exact ih n hn (hinside.sublist (flatten_sublist hn)) g hg

namespace Group
variable {text : String} {root : Group}

private theorem laid_root (h : ofTokens (Lexer.tokens text) = .ok root) (hne : root.children ≠ []) :
    root.Laid text := by
  have hsource : ∀ t ∈ Lexer.tokens text, t.source = text := fun t ht =>
    Lexer.source_of_mem_tokens ht
  have hflat := flatten_eq_meaningful h
  have hmeaningful : Token.InOrder text (Token.meaningful (Lexer.tokens text)) :=
    Lexer.inOrder_meaningful text
  generalize Lexer.tokens text = tokens at *
  obtain ⟨ns, hreads, rfl⟩ := reads_of_ofTokens h
  have hinside : ∀ n ∈ ns, n.Covered text :=
    hreads.covered Level.covered_empty (by simp) fun t ht => hsource t (List.mem_filter.mp ht).1
  have hns : Node.flattenList ns = Token.meaningful tokens := hflat
  have hhull (n : Node) (hn : n ∈ ns) : n.span.Hull n.flatten := by
    have ho := hmeaningful.sublist (hns ▸ Node.flatten_sublist hn)
    exact (hinside n hn).hull ho
  have hsome : Token.meaningful tokens ≠ [] := by
    obtain ⟨n, hn⟩ := List.exists_mem_of_ne_nil ns hne
    obtain ⟨t, ht, -⟩ := (hhull n hn).start
    exact List.ne_nil_of_mem (hns ▸ (Node.flatten_sublist hn).subset ht)
  have hsome' : tokens ≠ [] := by
    rintro rfl
    exact hsome rfl
  have hjoined := (hmeaningful.hull_extent hsome).joinAll hhull
  refine ⟨sourceOf_eq hsource hsome', hinside, hflat ▸ hmeaningful, ?_⟩
  apply hjoined.congr
  simp [hflat, hns]

namespace Laid
variable {g : Group}

theorem child (h : g.Laid text) {n : Node} (hn : n ∈ g.children) :
    Token.InOrder text n.flatten ∧ n.span.Hull n.flatten := by
  have hinside := h.inOrder.sublist (g.kind.inside_sublist_wrap (Node.flattenList g.children))
  have ho := hinside.sublist (Node.flatten_sublist hn)
  exact ⟨ho, (h.inside n hn).hull ho⟩

private theorem of_mem_groups (h : g.Laid text) : ∀ k ∈ g.groups, k.Laid text := by
  intro k hk
  rcases List.mem_cons.mp hk with rfl | hk
  · exact h
  · obtain ⟨n, hn, hk⟩ := Node.exists_of_mem_groupsList hk
    exact (h.inside n hn).laid (h.child hn).1 k hk

/-- The group shows the text from its first token to its last. -/
theorem exists_text (h : g.Laid text) : ∃ first last, g.flatten.head? = some first ∧
    g.flatten.getLast? = some last ∧ g.span = ⟨first.span.start, last.span.stop⟩ ∧
      ∃ front back, text = front ++ g.text ++ back ∧ front.utf8ByteSize = first.span.start ∧
        (front ++ g.text).utf8ByteSize = last.span.stop := by
  obtain ⟨first, last, hfirst, hlast, hspan⟩ := h.inOrder.hull_eq h.hull
  refine ⟨first, last, hfirst, hlast, hspan, ?_⟩
  have hmem := List.mem_of_mem_head? hfirst
  have hpoints : g.span.Points text := by
    have hstop := (h.hull.covers first hmem).2
    have hnonempty := h.inOrder.nonempty hmem
    rw [hspan] at hstop ⊢
    have hfirst := (h.inOrder.placed first hmem).2
    have hlast := (h.inOrder.placed last (List.mem_of_mem_getLast? hlast)).2
    exact ⟨Nat.lt_of_lt_of_le hnonempty hstop, ⟨hfirst.boundaries.1, hlast.boundaries.2⟩,
      hfirst.starts⟩
  have hexists := hpoints.exists_append
  rw [← h.source, ← Group.text, h.source] at hexists
  rwa [hspan] at hexists

private theorem children_pairwise (h : g.Laid text) :
    g.children.Pairwise fun m n => m.span.stop ≤ n.span.start := by
  have ho := h.inOrder.sublist (g.kind.inside_sublist_wrap (Node.flattenList g.children))
  have hhull (n : Node) (hn : n ∈ g.children) : n.span.Hull n.flatten := (h.child hn).2
  generalize g.children = ns at ho hhull ⊢
  induction ns with
  | nil => exact .nil
  | cons n ns ih =>
    obtain ⟨-, -, hpairs⟩ := List.pairwise_append.mp ho.pairwise
    obtain ⟨hn, hrest⟩ := List.forall_mem_cons.mp hhull
    refine .cons ?_ (ih (ho.sublist (List.sublist_append_right ..)) hrest)
    intro m hm
    -- The last token of the one stands before the first token of the other.
    obtain ⟨t, ht, hstop⟩ := hn.stop
    obtain ⟨u, hu, hstart⟩ := (hrest m hm).start
    have hle := hpairs t ht u ((Node.flatten_sublist hm).subset hu)
    omega

private theorem child_within (h : g.Laid text) {n : Node} (hn : n ∈ g.children) :
    g.span.start ≤ n.span.start ∧ n.span.start < n.span.stop ∧ n.span.stop ≤ g.span.stop := by
  obtain ⟨ho, hcovers, ⟨t, ht, hstart⟩, ⟨u, hu, hstop⟩⟩ := h.child hn
  have hmem {v : Token} (hv : v ∈ n.flatten) : v ∈ g.flatten :=
    (g.kind.inside_sublist_wrap _).subset ((Node.flatten_sublist hn).subset hv)
  have hleft := (h.hull.covers t (hmem ht)).1
  have hright := (h.hull.covers u (hmem hu)).2
  have hinside := (hcovers t ht).2
  have hnonempty := ho.nonempty ht
  omega

end Laid

/-- Every group of a structured text covers the text from its first token to its last, its children
cover parts of this one after the other, and none of them reaches beyond it. A root without any
token covers nothing. -/
theorem ofTokens_extents {text : String} {root g : Group}
    (h : ofTokens (Lexer.tokens text) = .ok root) (hne : root.children ≠ [])
    (hg : g ∈ root.groups) :
    (∃ first last, g.flatten.head? = some first ∧ g.flatten.getLast? = some last ∧
      g.span = ⟨first.span.start, last.span.stop⟩ ∧
      ∃ front back, text = front ++ g.text ++ back ∧ front.utf8ByteSize = first.span.start ∧
        (front ++ g.text).utf8ByteSize = last.span.stop) ∧
    (g.children.Pairwise fun m n => m.span.stop ≤ n.span.start) ∧
    ∀ n ∈ g.children, g.span.start ≤ n.span.start ∧ n.span.start < n.span.stop ∧
      n.span.stop ≤ g.span.stop := by
  have hlaid := (laid_root h hne).of_mem_groups g hg
  exact ⟨hlaid.exists_text, hlaid.children_pairwise, fun n => hlaid.child_within⟩

def spacedText : String := " f( a )| w b "

theorem ofTokens_extents_call : ∃ root g, ofTokens (Lexer.tokens spacedText) = .ok root ∧
    root.children ≠ [] ∧ g ∈ root.groups ∧ g.text = "f( a )" ∧
      (∃ first last, g.flatten.head? = some first ∧ g.flatten.getLast? = some last ∧
        g.span = ⟨first.span.start, last.span.stop⟩) ∧
      (g.children.Pairwise fun m n => m.span.stop ≤ n.span.start) ∧
      ∀ n ∈ g.children, g.span.start ≤ n.span.start ∧ n.span.stop ≤ g.span.stop := by
  have htexts : (ofTokens (Lexer.tokens spacedText)).toOption.map
      (fun root => (root.children.length, root.groups.map (·.text))) =
      some (2, ["f( a )| w b", "f( a )", "| w b"]) := by decide +kernel
  cases h : ofTokens (Lexer.tokens spacedText) with
  | error e =>
    rw [h] at htexts
    cases htexts
  | ok root =>
    rw [h] at htexts
    obtain ⟨hlength, hgroups⟩ := Prod.mk.inj (Option.some.inj htexts)
    have hne : root.children ≠ [] := by
      intro hnil
      rw [hnil] at hlength
      cases hlength
    have hmem : "f( a )" ∈ root.groups.map (·.text) := by simp [hgroups]
    obtain ⟨g, hg, htext⟩ := List.mem_map.mp hmem
    obtain ⟨⟨first, last, hfirst, hlast, hspan, -⟩, hpairs, hwithin⟩ := ofTokens_extents h hne hg
    refine ⟨root, g, rfl, hne, hg, htext, ⟨first, last, hfirst, hlast, hspan⟩, hpairs, ?_⟩
    intro n hn
    obtain ⟨hstart, -, hstop⟩ := hwithin n hn
    exact ⟨hstart, hstop⟩

end Group

end PipeQuery
