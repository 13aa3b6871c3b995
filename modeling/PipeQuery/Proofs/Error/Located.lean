import PipeQuery.Proofs.Group.Flatten
import PipeQuery.Proofs.Result
import PipeQuery.Proofs.Token.Partition

/-!
Places in a text. Tokens and groups stand at places that cover some of the text, and a refusal is
located when it points at such a place.
-/
namespace PipeQuery

/-- The span covers some of the text, its ends lie between characters, and it starts where a token
starts that means something. -/
structure Span.Points (text : String) (s : Span) : Prop where
  nonempty : s.start < s.stop
  boundaries : s.OnBoundaries text
  starts : ∃ t ∈ Token.meaningful (Lexer.tokens text), t.span.start = s.start

namespace Span.Points
variable {text : String} {s : Span}

theorem join {r : Span} (hs : s.Points text) (hr : r.Points text) : (s.join r).Points text := by
  obtain ⟨hlt, ⟨hstart, hstop⟩, hfirst⟩ := hs
  obtain ⟨hlt', ⟨hstart', hstop'⟩, hfirst'⟩ := hr
  refine ⟨?_, ⟨?_, ?_⟩, ?_⟩
  · simp only [Span.join]
    omega
  · rcases Nat.le_total s.start r.start with hle | hle
    · simpa [Span.join, Nat.min_eq_left hle] using hstart
    · simpa [Span.join, Nat.min_eq_right hle] using hstart'
  · rcases Nat.le_total s.stop r.stop with hle | hle
    · simpa [Span.join, Nat.max_eq_right hle] using hstop'
    · simpa [Span.join, Nat.max_eq_left hle] using hstop
  · rcases Nat.le_total s.start r.start with hle | hle
    · simpa [Span.join, Nat.min_eq_left hle] using hfirst
    · simpa [Span.join, Nat.min_eq_right hle] using hfirst'

theorem joinAll {others : List Span} (hs : s.Points text) (h : ∀ r ∈ others, r.Points text) :
    (s.joinAll others).Points text := by
  induction others generalizing s with
  | nil => exact hs
  | cons r others ih =>
    obtain ⟨hr, hothers⟩ := List.forall_mem_cons.mp h
    exact ih (hs.join hr) hothers

/-- What such a span covers stands between a front and a back part of the text. -/
theorem exists_append (hs : s.Points text) :
    ∃ front back, text = front ++ Text.slice text s ++ back ∧ front.utf8ByteSize = s.start ∧
      (front ++ Text.slice text s).utf8ByteSize = s.stop := by
  obtain ⟨start, stop⟩ := s
  obtain ⟨hlt, ⟨hstart, hstop⟩, -⟩ := hs
  obtain ⟨front, rest, hfront, hstart⟩ := String.Pos.Raw.isValid_iff_exists_append.mp hstart
  obtain ⟨upto, back, hupto, hstop⟩ := String.Pos.Raw.isValid_iff_exists_append.mp hstop
  obtain rfl : start = front.utf8ByteSize := congrArg String.Pos.Raw.byteIdx hstart
  obtain rfl : stop = upto.utf8ByteSize := congrArg String.Pos.Raw.byteIdx hstop
  have hlists : front.toList ++ rest.toList = upto.toList ++ back.toList := by
    rw [← String.toList_append, ← String.toList_append, ← hfront, hupto]
  rcases List.append_eq_append_iff.mp hlists with ⟨mid, hmid, -⟩ | ⟨mid, hmid, -⟩
  · have hsize : upto.utf8ByteSize = front.utf8ByteSize + Text.byteLength mid := by
      rw [← Text.byteLength_toList, hmid, Text.byteLength_append, Text.byteLength_toList]
    have htext : text.toList = front.toList ++ mid ++ back.toList := by
      rw [hupto, String.toList_append, hmid]
    have hslice : Text.slice text ⟨front.utf8ByteSize, upto.utf8ByteSize⟩ = String.ofList mid := by
      rw [hsize, ← Text.byteLength_toList front]
      exact Text.slice_between htext
    refine ⟨front, back, ?_, rfl, ?_⟩
    · rw [hslice, ← String.toList_inj, htext]
      simp
    · rw [hslice, String.utf8ByteSize_append, ← Text.byteLength_eq_utf8ByteSize, hsize]
  · -- The front part would be the longer of the two.
    have hsize : Text.byteLength front.toList =
        Text.byteLength upto.toList + Text.byteLength mid := by
      rw [hmid, Text.byteLength_append]
    rw [Text.byteLength_toList, Text.byteLength_toList] at hsize
    simp only at hlt
    omega

end Span.Points

def Place.Points (text : String) (p : Place) : Prop :=
  p.span.Points text ∧ p.text = Text.slice text p.span

def Token.Placed (text : String) (t : Token) : Prop := t.source = text ∧ t.span.Points text

/-- The node, all tokens that frame it and all nodes inside of it stand in the text. -/
inductive Node.Placed (text : String) : Node → Prop where
  | token {t : Token} (token : t.Placed text) : Placed text (.token t)
  | group {kind : GroupKind} {span : Span} {children : List Node} (points : span.Points text)
      (frame : ∀ t ∈ kind.wrap [], t.Placed text) (inside : ∀ n ∈ children, Placed text n) :
      Placed text (.group kind text span children)

def Group.Placed (text : String) (g : Group) : Prop := g.toNode.Placed text

def SyntaxError.Located (text : String) (e : SyntaxError) : Prop :=
  ∃ p, e.place = some p ∧ p.Points text

def Failure.Located (text : String) : Failure SyntaxError → Prop
  | .rejected e => e.Located text
  | .overflow => True

section
variable {text : String}

theorem Place.Points.located {p : Place} (h : p.Points text) (fault : Fault) :
    SyntaxError.Located text ⟨fault, some p⟩ :=
  ⟨p, rfl, h⟩

theorem Token.Placed.place {t : Token} (h : t.Placed text) : t.place.Points text :=
  ⟨h.2, congrArg (Text.slice · t.span) h.1⟩

theorem Node.Placed.span {n : Node} (h : n.Placed text) : n.span.Points text := by
  cases h with
  | token token => exact token.2
  | group points frame inside => exact points

theorem Node.Placed.place {n : Node} (h : n.Placed text) : n.place.Points text := by
  cases h with
  | token token => exact token.place
  | group points frame inside => exact ⟨points, rfl⟩

namespace Group.Placed
variable {g : Group}

theorem place (h : g.Placed text) : g.place.Points text := Node.Placed.place h

theorem children (h : g.Placed text) : ∀ n ∈ g.children, n.Placed text := by
  cases h with
  | group points frame inside => exact inside

theorem frame (h : g.Placed text) : ∀ t ∈ g.kind.wrap [], t.Placed text := by
  cases h with
  | group points frame inside => exact frame

end Group.Placed

theorem Node.Placed.group? {n : Node} {g : Group} (h : n.Placed text) (hg : n.group? = some g) :
    g.Placed text := by
  cases n with
  | token t => cases hg
  | group kind source span children =>
    cases hg
    exact h

theorem Node.Placed.function? {n : Node} {g : Group} (h : n.Placed text)
    (hg : n.function? = some g) : g.Placed text := by
  unfold Node.function? at hg
  split at hg
  · cases hg
    exact h
  · cases hg

theorem Node.Placed.bracket? {n : Node} {g : Group} (h : n.Placed text)
    (hg : n.bracket? = some g) : g.Placed text := by
  unfold Node.bracket? at hg
  split at hg
  · cases hg
    exact h
  · cases hg

theorem Ends.ofExcept {α : Type} {P : α → Prop} {x : Except SyntaxError α}
    (h : Ends (SyntaxError.Located text) P x) :
    Ends (Failure.Located text) P (Result.ofExcept x) := by
  cases x with
  | error e => exact h
  | ok a => exact h

/-- A group whose parts stand in the text stands there itself. -/
theorem Group.placed_cover {kind : GroupKind} {span : Span} {children : List Node}
    (hspan : span.Points text) (hframe : ∀ t ∈ kind.wrap [], t.Placed text)
    (hinside : ∀ n ∈ children, n.Placed text) : (cover kind text span children).Placed text := by
  refine .group (hspan.joinAll ?_) hframe hinside
  intro s hs
  obtain ⟨n, hn, rfl⟩ := List.mem_map.mp hs
  exact (hinside n hn).span

namespace Opening

def Placed (text : String) : Opening → Prop
  | .bracket opening => opening.Placed text
  | .function name opening => name.Placed text ∧ opening.Placed text

theorem Placed.token {o : Opening} (h : o.Placed text) : o.token.Placed text := by
  cases o with
  | bracket opening => exact h
  | function name opening => exact h.2

theorem Placed.close {o : Opening} (h : o.Placed text) {closing : Token}
    (hc : closing.Placed text) {children : List Node} (hinside : ∀ n ∈ children, n.Placed text) :
    (o.close closing children).Placed text := by
  cases o with
  | bracket opening =>
    obtain ⟨hsource, hspan⟩ := h
    rw [Opening.close, hsource]
    refine Group.placed_cover (hspan.join hc.2) ?_ hinside
    simpa [GroupKind.wrap] using ⟨⟨hsource, hspan⟩, hc⟩
  | function name opening =>
    obtain ⟨⟨hsource, hspan⟩, hopening⟩ := h
    rw [Opening.close, hsource]
    refine Group.placed_cover (hspan.join hc.2) ?_ hinside
    simpa [GroupKind.wrap] using ⟨⟨hsource, hspan⟩, hopening, hc⟩

end Opening

structure OpenClause.Placed (text : String) (c : OpenClause) : Prop where
  source : c.source = text
  span : c.span.Points text
  frame : ∀ t ∈ c.kind.wrap [], t.Placed text
  inside : ∀ n ∈ c.children, n.Placed text

theorem OpenClause.Placed.close {c : OpenClause} (h : c.Placed text) : c.close.Placed text := by
  rw [OpenClause.close, h.source]
  exact Group.placed_cover h.span h.frame h.inside

namespace Level

structure Placed (text : String) (l : Level) : Prop where
  done : ∀ n ∈ l.done, n.Placed text
  current : ∀ c, l.current = some c → c.Placed text

theorem placed_empty : Placed text {} := by
  constructor
  · intro n hn
    cases hn
  · intro c hc
    cases hc

namespace Placed
variable {l : Level}

theorem add (h : l.Placed text) {n : Node} (hn : n.Placed text) : (l.add n).Placed text := by
  obtain ⟨done, current⟩ := l
  cases current with
  | none =>
    refine ⟨List.forall_mem_append.mpr ⟨h.done, List.forall_mem_singleton.mpr hn⟩, ?_⟩
    intro c hc
    cases hc
  | some c =>
    refine ⟨h.done, ?_⟩
    intro c' hc'
    cases hc'
    obtain ⟨hsource, hspan, hframe, hinside⟩ := h.current c rfl
    refine ⟨hsource, hspan, hframe, ?_⟩
    exact List.forall_mem_append.mpr ⟨hinside, List.forall_mem_singleton.mpr hn⟩

theorem nodes (h : l.Placed text) : ∀ n ∈ l.nodes, n.Placed text := by
  obtain ⟨done, current⟩ := l
  cases current with
  | none => exact h.done
  | some c =>
    have hclosed := (h.current c rfl).close
    exact List.forall_mem_append.mpr ⟨h.done, List.forall_mem_singleton.mpr hclosed⟩

theorem start (h : l.Placed text) {c : OpenClause} (hc : c.Placed text) :
    (l.start c).Placed text := by
  refine ⟨h.nodes, ?_⟩
  intro c' hc'
  cases hc'
  exact hc

end Placed

theorem ends_read {outer : List (Opening × Level)} {level : Level} {ts : List Token}
    (houter : ∀ p ∈ outer, p.1.Placed text ∧ p.2.Placed text) (hlevel : level.Placed text)
    (hts : ∀ t ∈ ts, t.Placed text) :
    Ends (SyntaxError.Located text) (∀ n ∈ ·, n.Placed text) (read outer level ts) := by
  fun_induction read outer level ts with
  | case1 level => exact hlevel.nodes
  | case2 outer level opening around => exact (houter _ List.mem_cons_self).1.token.place.located _
  | case3 | case5 | case7 | case8 | case10 => exact (hts _ List.mem_cons_self).place.located _
  | case4 level t ts ht opening around outer ih =>
    obtain ⟨hp, houter⟩ := List.forall_mem_cons.mp houter
    obtain ⟨ht, hts⟩ := List.forall_mem_cons.mp hts
    exact ih houter (hp.2.add (hp.1.close ht hlevel.nodes)) hts
  | case6 outer level t ht c ts hc ih =>
    obtain ⟨ht, hts⟩ := List.forall_mem_cons.mp hts
    obtain ⟨hc, hts⟩ := List.forall_mem_cons.mp hts
    refine ih houter (hlevel.start ⟨ht.1, ht.2.join hc.2, ?_, by simp⟩) hts
    simpa [GroupKind.wrap] using ⟨ht, hc⟩
  | case9 outer level t ht b ts hb ih =>
    obtain ⟨ht, hts⟩ := List.forall_mem_cons.mp hts
    obtain ⟨hb, hts⟩ := List.forall_mem_cons.mp hts
    exact ih (List.forall_mem_cons.mpr ⟨⟨⟨ht, hb⟩, hlevel⟩, houter⟩) placed_empty hts
  | case11 outer level t ts ht ih =>
    obtain ⟨ht, hts⟩ := List.forall_mem_cons.mp hts
    exact ih (List.forall_mem_cons.mpr ⟨⟨ht, hlevel⟩, houter⟩) placed_empty hts
  | case12 level t ts c ht ih =>
    obtain ⟨ht, hts⟩ := List.forall_mem_cons.mp hts
    refine ih houter (hlevel.start ⟨ht.1, ht.2, ?_, by simp⟩) hts
    simpa [GroupKind.wrap] using ht
  | case13 level t ts c ht head tail ih =>
    obtain ⟨ht, hts⟩ := List.forall_mem_cons.mp hts
    exact ih houter (hlevel.add (.token ht)) hts
  | case14 outer level t ts hclose hpipe hfun hopen hclause ih =>
    obtain ⟨ht, hts⟩ := List.forall_mem_cons.mp hts
    exact ih houter (hlevel.add (.token ht)) hts

end Level

theorem Group.ends_ofTokens {ts : List Token} (h : ∀ t ∈ Token.meaningful ts, t.Placed text) :
    Ends (SyntaxError.Located text) (fun root => ∀ n ∈ root.children, n.Placed text)
      (ofTokens ts) := by
  have hread : Ends (SyntaxError.Located text) (∀ n ∈ ·, n.Placed text)
      (Level.read [] {} (Token.meaningful ts)) :=
    Level.ends_read (by simp) Level.placed_empty h
  exact hread.bind fun nodes _ hnodes => hnodes

private theorem Span.Tile.nonempty_of_mem {start stop : Nat} {ss : List Span} {s : Span}
    (h : Tile start stop ss) (hs : s ∈ ss) : s.start < s.stop := by
  induction h with
  | nil n => cases hs
  | cons nonempty rest ih =>
    rcases List.mem_cons.mp hs with rfl | hs
    · exact nonempty
    · exact ih hs

theorem Lexer.source_of_mem_tokens {t : Token} (h : t ∈ tokens text) : t.source = text := by
  rw [tokens] at h
  exact ((partition_layout (covers_pieces text.toList)).2.1 t h).1

theorem Lexer.placed_of_mem_meaningful {t : Token} (h : t ∈ Token.meaningful (tokens text)) :
    t.Placed text := by
  have hmem := (List.mem_filter.mp h).1
  rw [tokens] at hmem
  obtain ⟨htile, hplaced, -⟩ := partition_layout (covers_pieces text.toList)
  obtain ⟨hsource, hbounds⟩ := hplaced t hmem
  exact ⟨hsource, htile.nonempty_of_mem (List.mem_map_of_mem hmem), hbounds, t, h, rfl⟩

end

end PipeQuery
