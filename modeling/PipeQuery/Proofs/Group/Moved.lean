import PipeQuery.Proofs.Group.Acceptance
import PipeQuery.Proofs.Scalar.Structured

/-!
Tokens of a text that stands inside of another text. They are structured as they are in the text
alone, and what the nodes show is the same. Only their places differ.
-/
namespace PipeQuery

/-- Nodes that tokens without pipes and clauses make up: leaves, brackets and calls. -/
inductive Formed : List Token → List Node → Prop where
  | nil : Formed [] []
  | leaf {t : Token} {ts : List Token} {ns : List Node} (leaf : Level.IsLeaf [] t)
    (rest : Formed ts ns) : Formed (t :: ts) (.token t :: ns)
  | bracket {o c : Token} {inner ts : List Token} {children ns : List Node}
    (opening : o.kind = .openBracket) (closing : c.kind = .closeBracket)
    (inside : Formed inner children) (rest : Formed ts ns) :
    Formed (o :: (inner ++ c :: ts)) ((Opening.bracket o).close c children :: ns)
  | call {n o c : Token} {inner ts : List Token} {children ns : List Node}
    (name : n.kind = .functionName) (opening : o.kind = .openBracket)
    (closing : c.kind = .closeBracket) (inside : Formed inner children) (rest : Formed ts ns) :
    Formed (n :: o :: (inner ++ c :: ts)) ((Opening.function n o).close c children :: ns)

theorem Level.IsLeaf.read_eq {t : Token} (h : IsLeaf [] t) (outer : List (Opening × Level))
    (level : Level) (ts : List Token) :
    read outer level (t :: ts) = read outer (level.add (.token t)) ts := by
  obtain ⟨hclose, hopen, hpipe, hfun, hclause⟩ := h
  rw [read.eq_def]
  cases hk : t.kind <;> simp_all [TokenKind.isClause]

namespace Formed
variable {ts : List Token} {ns : List Node}

/-- The nodes are added to whatever level the tokens are read in. -/
theorem read_eq (h : Formed ts ns) (outer : List (Opening × Level)) (level : Level)
    (rest : List Token) :
    Level.read outer level (ts ++ rest) = Level.read outer (ns.foldl Level.add level) rest := by
  induction h generalizing outer level rest with
  | nil => rfl
  | leaf leaf _ ih => rw [List.cons_append, leaf.read_eq, ih, List.foldl_cons]
  | bracket opening closing _ _ ihInside ihRest =>
    rw [List.cons_append, List.append_assoc, Level.read_open _ _ _ opening, ihInside,
      List.cons_append, Level.read_close _ _ _ _ _ closing, Level.nodes_foldl_add, ihRest]
    rfl
  | call name opening closing _ _ ihInside ihRest =>
    rw [List.cons_append, List.cons_append, List.append_assoc, Level.read_call _ _ _ name opening,
      ihInside, List.cons_append, Level.read_close _ _ _ _ _ closing, Level.nodes_foldl_add, ihRest]
    rfl

theorem append {us : List Token} {ms : List Node} (h : Formed ts ns) (hrest : Formed us ms) :
    Formed (ts ++ us) (ns ++ ms) := by
  induction h with
  | nil => exact hrest
  | leaf leaf _ ih => exact .leaf leaf ih
  | bracket opening closing inside _ _ ih =>
    rw [List.cons_append, List.append_assoc, List.cons_append]
    exact .bracket opening closing inside ih
  | call name opening closing inside _ _ ih =>
    rw [List.cons_append, List.cons_append, List.append_assoc, List.cons_append]
    exact .call name opening closing inside ih

/-- Tokens that make up nodes have these as the children of their root. -/
theorem ofTokens_eq {tokens : List Token} (h : Formed (Token.meaningful tokens) ns) :
    ∃ root, Group.ofTokens tokens = .ok root ∧ root.children = ns := by
  have hread := h.read_eq [] {} []
  rw [List.append_nil] at hread
  rw [Group.ofTokens_eq, hread, Level.read, Level.nodes_foldl_add]
  exact ⟨_, rfl, rfl⟩

theorem kinds (h : Formed ts ns) :
    ∀ n ∈ ns, (∃ t ∈ ts, n = .token t) ∨ n.kind = .tokenGroup ∨ n.kind = .functionGroup := by
  induction h with
  | nil => simp
  | leaf _ _ ih =>
    intro n hn
    rcases List.mem_cons.mp hn with rfl | hn
    · exact .inl ⟨_, List.mem_cons_self, rfl⟩
    · obtain ⟨t, ht, rfl⟩ | hgroup := ih n hn
      · exact .inl ⟨t, List.mem_cons_of_mem _ ht, rfl⟩
      · exact .inr hgroup
  | bracket _ _ _ _ _ ih =>
    intro n hn
    rcases List.mem_cons.mp hn with rfl | hn
    · exact .inr (.inl rfl)
    · obtain ⟨t, ht, rfl⟩ | hgroup := ih n hn
      · exact .inl ⟨t, by simp [ht], rfl⟩
      · exact .inr hgroup
  | call _ _ _ _ _ _ ih =>
    intro n hn
    rcases List.mem_cons.mp hn with rfl | hn
    · exact .inr (.inr rfl)
    · obtain ⟨t, ht, rfl⟩ | hgroup := ih n hn
      · exact .inl ⟨t, by simp [ht], rfl⟩
      · exact .inr hgroup

end Formed

namespace Level

/-- Reading goes on to the next close bracket that does not belong to what is read, or to the
end. -/
theorem exists_formed {outer : List (Opening × Level)} {done : List Node} {ts : List Token}
    {nodes : List Node} (hkinds : ∀ t ∈ ts, t.kind ≠ .pipe ∧ t.kind.isClause = false)
    (h : read outer ⟨done, none⟩ ts = .ok nodes) :
    ∃ front back ns, ts = front ++ back ∧ Formed front ns ∧
      read outer ⟨done ++ ns, none⟩ back = .ok nodes ∧
      ∀ c, back.head? = some c → c.kind = .closeBracket := by
  induction hn : ts.length using Nat.strongRecOn generalizing outer done ts with
  | ind n ih =>
    cases ts with
    | nil => exact ⟨[], [], [], rfl, .nil, by rwa [List.append_nil], by simp⟩
    | cons t ts =>
      obtain ⟨ht, hts⟩ := List.forall_mem_cons.mp hkinds
      rw [List.length_cons] at hn
      -- An inner level is read up to its close bracket, and then there are fewer tokens left.
      have hinner (opening : Opening) (us : List Token) (hus : us <:+ ts)
          (hread : read ((opening, ⟨done, none⟩) :: outer) {} us = .ok nodes) :
          ∃ inner c children front back ns, us = inner ++ c :: (front ++ back) ∧
            c.kind = .closeBracket ∧ Formed inner children ∧ Formed front ns ∧
            read outer ⟨done ++ opening.close c children :: ns, none⟩ back = .ok nodes ∧
            ∀ c, back.head? = some c → c.kind = .closeBracket := by
        have hlength := hus.length_le
        obtain ⟨inner, back, children, rfl, hformed, hback, hhead⟩ :=
          ih us.length (by omega) (fun u hu => hts u (hus.subset hu)) hread rfl
        cases back with
        | nil =>
          rw [read] at hback
          cases hback
        | cons c rest =>
          have hc := hhead c rfl
          rw [read_close _ _ _ _ _ hc] at hback
          rw [List.length_append, List.length_cons] at hlength
          obtain ⟨front, back, ns, rfl, hrest, hback, hhead⟩ :=
            ih rest.length (by omega) (fun u hu => hts u (hus.subset (by simp [hu]))) hback rfl
          refine ⟨inner, c, children, front, back, ns, rfl, hc, hformed, hrest, ?_, hhead⟩
          rw [List.append_assoc] at hback
          exact hback
      by_cases hclose : t.kind = .closeBracket
      · refine ⟨[], t :: ts, [], rfl, .nil, by rwa [List.append_nil], ?_⟩
        rintro _ ⟨⟩
        exact hclose
      by_cases hopen : t.kind = .openBracket
      · rw [read_open _ _ _ hopen] at h
        obtain ⟨inner, c, children, front, back, ns, rfl, hc, hinside, hrest, hback, hhead⟩ :=
          hinner (.bracket t) ts (List.suffix_refl ts) h
        exact ⟨_, back, _, by simp, .bracket hopen hc hinside hrest, hback, hhead⟩
      by_cases hfun : t.kind = .functionName
      · cases ts with
        | nil =>
          rw [read.eq_def] at h
          simp [hfun] at h
        | cons b ts =>
          by_cases hb : b.kind = .openBracket
          · rw [read_call _ _ _ hfun hb] at h
            obtain ⟨inner, c, children, front, back, ns, rfl, hc, hinside, hrest, hback, hhead⟩ :=
              hinner (.function t b) ts (List.suffix_cons b ts) h
            exact ⟨_, back, _, by simp, .call hfun hb hc hinside hrest, hback, hhead⟩
          · rw [read.eq_def] at h
            simp [hfun, hb] at h
      · have hleaf : IsLeaf [] t := ⟨hclose, hopen, ht.1, hfun, by simp [ht.2]⟩
        rw [hleaf.read_eq] at h
        obtain ⟨front, back, ns, rfl, hformed, hback, hhead⟩ := ih ts.length (by omega) hts h rfl
        rw [List.append_assoc] at hback
        exact ⟨t :: front, back, .token t :: ns, rfl, .leaf hleaf hformed, hback, hhead⟩

end Level

/-- Tokens that can be structured make up nodes. -/
theorem Formed.of_wellStructured {ts : List Token} (h : Token.WellStructured 0 ts)
    (hkinds : ∀ t ∈ ts, t.kind ≠ .pipe ∧ t.kind.isClause = false) : ∃ ns, Formed ts ns := by
  obtain ⟨nodes, hread⟩ := (Level.exists_read_eq_ok_iff [] {} ts).mpr h
  obtain ⟨front, back, ns, rfl, hformed, hback, hhead⟩ := Level.exists_formed hkinds hread
  cases back with
  | nil => exact ⟨ns, by rwa [List.append_nil]⟩
  | cons c rest =>
    rw [Level.read.eq_def] at hback
    simp [hhead c rfl] at hback

def Span.shift (offset : Nat) (s : Span) : Span := ⟨offset + s.start, offset + s.stop⟩

private theorem Span.shift_join (offset : Nat) (s r : Span) :
    (s.join r).shift offset = (s.shift offset).join (r.shift offset) := by
  simp only [shift, join, Span.mk.injEq]
  omega

private theorem Span.shift_joinAll (offset : Nat) (s : Span) (others : List Span) :
    (s.joinAll others).shift offset = (s.shift offset).joinAll (others.map (shift offset)) := by
  induction others generalizing s with
  | nil => rfl
  | cons r others ih => rw [joinAll, List.foldl_cons, ← joinAll, ih, shift_join]; rfl

structure Span.Inside (text : String) (s : Span) : Prop where
  start_le : s.start ≤ s.stop
  stop_le : s.stop ≤ Text.byteLength text.toList

namespace Span.Inside
variable {text : String} {s r : Span}

theorem join (hs : s.Inside text) (hr : r.Inside text) : (s.join r).Inside text := by
  have hstart := hs.start_le
  have hstop := hs.stop_le
  have hend := hr.stop_le
  constructor
  · simp only [Span.join]
    omega
  · simp only [Span.join]
    omega

theorem joinAll (hs : s.Inside text) {others : List Span} (h : ∀ r ∈ others, r.Inside text) :
    (s.joinAll others).Inside text := by
  induction others generalizing s with
  | nil => exact hs
  | cons r others ih =>
    obtain ⟨hr, hothers⟩ := List.forall_mem_cons.mp h
    exact ih (hs.join hr) hothers

end Span.Inside

def Token.move (source : String) (offset : Nat) (t : Token) : Token :=
  ⟨t.kind, source, t.span.shift offset⟩

def Group.signature (g : Group) : Option String × List (TokenKind × String) :=
  (g.functionName?, g.children.map fun c => (c.kind, c.unescaped))

/-- What a reader sees of a node apart from where it stands. -/
@[ext]
structure Node.View where
  isToken : Bool
  kind : TokenKind
  text : String
  unescaped : String
  call : Option (Option String × List (TokenKind × String))
  deriving DecidableEq

def Node.view (n : Node) : Node.View where
  isToken := n.group?.isNone
  kind := n.kind
  text := n.text
  unescaped := n.unescaped
  call := n.function?.map Group.signature

/-- The second nodes show the same as the first ones, which stand in the text, at places so many
bytes further on. -/
structure Node.Moved (text : String) (offset : Nat) (ns ms : List Node) : Prop where
  views : ms.map view = ns.map view
  spans : ms.map (·.span) = ns.map (·.span.shift offset)
  inside : ∀ n ∈ ns, n.span.Inside text

theorem Node.Moved.cons {text : String} {offset : Nat} {n m : Node} {ns ms : List Node}
    (h : Moved text offset [n] [m]) (hrest : Moved text offset ns ms) :
    Moved text offset (n :: ns) (m :: ms) where
  views := by
    have hview : m.view = n.view := by simpa using h.views
    rw [List.map_cons, List.map_cons, hview, hrest.views]
  spans := by
    have hspan : m.span = n.span.shift offset := by simpa using h.spans
    rw [List.map_cons, List.map_cons, hspan, hrest.spans]
  inside := List.forall_mem_cons.mpr ⟨h.inside n List.mem_cons_self, hrest.inside⟩

section
variable {text source : String} {front back : List Char}
  (hsource : source.toList = front ++ (text.toList ++ back))
include hsource

private theorem Span.Inside.slice_shift {s : Span} (h : s.Inside text) :
    Text.slice source (s.shift (Text.byteLength front)) = Text.slice text s :=
  Text.slice_inside hsource h.start_le h.stop_le

private theorem Node.moved_token {t : Token} (ht : t.source = text) (hinside : t.span.Inside text) :
    Moved text (Text.byteLength front) [.token t]
      [.token (t.move source (Text.byteLength front))] := by
  have hkind : (t.move source (Text.byteLength front)).kind = t.kind := rfl
  have hslice : (t.move source (Text.byteLength front)).slice = t.slice := by
    rw [Token.slice, Token.slice, ht]
    exact hinside.slice_shift hsource
  refine ⟨?_, rfl, List.forall_mem_singleton.mpr hinside⟩
  simp only [List.map_cons, List.map_nil, view, group?, kind, Node.text, unescaped, function?,
    Token.text, Token.unescaped, hslice, hkind]

/-- A group is moved with its first span and its children. -/
theorem Node.moved_cover (k k' : GroupKind) {span : Span} {children children' : List Node}
    (hkind : k'.tokenKind = k.tokenKind) (hinside : span.Inside text)
    (hcall : ∀ s s', (Node.group k' source s' children').view.call =
      (Node.group k text s children).view.call)
    (h : Moved text (Text.byteLength front) children children') :
    Moved text (Text.byteLength front) [(Group.cover k text span children).toNode]
      [(Group.cover k' source (span.shift (Text.byteLength front)) children').toNode] := by
  have hspan : (span.shift (Text.byteLength front)).joinAll (children'.map (·.span)) =
      (span.joinAll (children.map (·.span))).shift (Text.byteLength front) := by
    rw [Span.shift_joinAll, h.spans, List.map_map]
    rfl
  have hwhole : (span.joinAll (children.map (·.span))).Inside text := by
    refine hinside.joinAll ?_
    intro r hr
    obtain ⟨n, hn, rfl⟩ := List.mem_map.mp hr
    exact h.inside n hn
  rw [Group.cover, Group.cover, hspan]
  have hslice := hwhole.slice_shift hsource
  refine ⟨List.singleton_inj.mpr ?_, rfl, List.forall_mem_singleton.mpr hwhole⟩
  exact View.ext rfl hkind hslice hslice (hcall _ _)

/-- Tokens of a text inside of another make up nodes that show the same. -/
theorem Formed.move {ts : List Token} {ns : List Node} (h : Formed ts ns)
    (hts : ∀ t ∈ ts, t.source = text ∧ t.span.Inside text) :
    ∃ ms, Formed (ts.map (Token.move source (Text.byteLength front))) ms ∧
      Node.Moved text (Text.byteLength front) ns ms := by
  induction h with
  | nil => exact ⟨[], .nil, rfl, rfl, by simp⟩
  | @leaf t ts ns leaf _ ih =>
    obtain ⟨⟨ht, hinside⟩, hrest⟩ := List.forall_mem_cons.mp hts
    obtain ⟨ms, hformed, hmoved⟩ := ih hrest
    obtain ⟨hclose, hopen, hpipe, hfun, hclause⟩ := leaf
    exact ⟨_, .leaf ⟨hclose, hopen, hpipe, hfun, hclause⟩ hformed,
      (Node.moved_token hsource ht hinside).cons hmoved⟩
  | @bracket o c inner ts children ns opening closing _ _ ihInside ihRest =>
    simp only [List.forall_mem_cons, List.forall_mem_append] at hts
    obtain ⟨⟨rfl, ho⟩, hinner, ⟨hc, hcInside⟩, hrest⟩ := hts
    obtain ⟨children', hformed, hchildren⟩ := ihInside hinner
    obtain ⟨ms, hformed', hmoved⟩ := ihRest hrest
    have hgroup := Node.moved_cover hsource (.bracket o c)
      (.bracket (o.move source (Text.byteLength front)) (c.move source (Text.byteLength front)))
      rfl (ho.join hcInside) (fun _ _ => rfl) hchildren
    rw [Span.shift_join] at hgroup
    rw [List.map_cons, List.map_append, List.map_cons]
    exact ⟨_, .bracket opening closing hformed hformed', hgroup.cons hmoved⟩
  | @call n o c inner ts children ns name opening closing _ _ ihInside ihRest =>
    simp only [List.forall_mem_cons, List.forall_mem_append] at hts
    obtain ⟨⟨rfl, hn⟩, ho, hinner, ⟨hc, hcInside⟩, hrest⟩ := hts
    obtain ⟨children', hformed, hchildren⟩ := ihInside hinner
    obtain ⟨ms, hformed', hmoved⟩ := ihRest hrest
    have hname : (n.move source (Text.byteLength front)).slice = n.slice :=
      hn.slice_shift hsource
    have harguments := congrArg (List.map fun v : Node.View => (v.kind, v.unescaped))
      hchildren.views
    rw [List.map_map, List.map_map] at harguments
    have hgroup := Node.moved_cover hsource (.function n o c)
      (.function (n.move source (Text.byteLength front)) (o.move source (Text.byteLength front))
        (c.move source (Text.byteLength front))) rfl (hn.join hcInside)
      (fun _ _ => congrArg some (Prod.ext (congrArg some hname) harguments)) hchildren
    rw [Span.shift_join] at hgroup
    rw [List.map_cons, List.map_cons, List.map_append, List.map_cons]
    exact ⟨_, .call name opening closing hformed hformed', hgroup.cons hmoved⟩

end

namespace Lexer

theorem layout_append (source : String) (start : Nat) (ps qs : List Piece) :
    layout source start (ps ++ qs) =
      layout source start ps ++ layout source (start + Text.byteLength (Piece.spell ps)) qs := by
  induction ps generalizing start with
  | nil => rfl
  | cons p ps ih =>
    rw [List.cons_append, layout, ih, Piece.spell_cons, Text.byteLength_append, ← Nat.add_assoc]
    rfl

theorem layout_move (source text : String) (offset start : Nat) (ps : List Piece) :
    layout source (offset + start) ps =
      (layout text start ps).map (Token.move source offset) := by
  induction ps generalizing start with
  | nil => rfl
  | cons p ps ih =>
    rw [layout, layout, List.map_cons, ← ih, Nat.add_assoc]
    rfl

theorem inside_of_mem_tokens {text : String} {t : Token} (h : t ∈ tokens text) :
    t.source = text ∧ t.span.Inside text := by
  have hlayout (ps : List Piece) : ∀ start, t ∈ layout text start ps →
      t.span.start ≤ t.span.stop ∧ t.span.stop ≤ start + Text.byteLength (Piece.spell ps) := by
    induction ps with
    | nil => simp [layout]
    | cons p ps ih =>
      intro start ht
      rw [Piece.spell_cons, Text.byteLength_append]
      rcases List.mem_cons.mp ht with rfl | ht
      · simp
      · have hrest := ih _ ht
        omega
  obtain ⟨hle, hstop⟩ := hlayout _ 0 h
  rw [(covers_pieces text.toList).spells, Nat.zero_add] at hstop
  exact ⟨source_of_mem_layout h, hle, hstop⟩

end Lexer

theorem Token.meaningful_move (source : String) (offset : Nat) (ts : List Token) :
    meaningful (ts.map (move source offset)) = (meaningful ts).map (move source offset) := by
  rw [meaningful, meaningful, List.filter_map]
  rfl

end PipeQuery
