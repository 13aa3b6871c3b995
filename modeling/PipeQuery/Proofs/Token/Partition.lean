import PipeQuery.Proofs.Text.Bytes
import PipeQuery.Token.Lexer

/-!
The tokens of a text are a partition of it. Every stage of the lexer keeps the pieces a cover of the
characters, whatever its rules match or refuse, and the last stage leaves no piece unclassified.
-/
namespace PipeQuery

namespace Piece

/-- The pieces spell the characters, and none of them is empty. -/
structure Covers (cs : List Char) (pieces : List Piece) : Prop where
  spells : spell pieces = cs
  nonempty : ∀ p ∈ pieces, p.chars ≠ []

theorem spell_cons (p : Piece) (ps : List Piece) : spell (p :: ps) = p.chars ++ spell ps := rfl

theorem spell_append (ps qs : List Piece) : spell (ps ++ qs) = spell ps ++ spell qs :=
  List.flatMap_append

theorem spell_prepend (cs : List Char) (ps : List Piece) :
    spell (prepend cs ps) = cs ++ spell ps := by
  fun_cases prepend cs ps <;> simp [spell]

theorem nonempty_of_mem_prepend {cs : List Char} {ps : List Piece} (hc : cs ≠ [])
    (hp : ∀ p ∈ ps, p.chars ≠ []) : ∀ p ∈ prepend cs ps, p.chars ≠ [] := by
  fun_cases prepend cs ps with
  | case1 rest ps =>
    intro p hm
    rcases List.mem_cons.mp hm with rfl | hm
    · simp [hc]
    · exact hp p (List.mem_cons_of_mem _ hm)
  | case2 =>
    intro p hm
    rcases List.mem_cons.mp hm with rfl | hm
    · exact hc
    · exact hp p hm

namespace Covers

theorem nil : Covers [] [] := ⟨rfl, by simp⟩

theorem singleton {p : Piece} (h : p.chars ≠ []) : Covers p.chars [p] :=
  ⟨by simp [spell], by simpa using h⟩

theorem append {cs ds : List Char} {ps qs : List Piece} (hp : Covers cs ps) (hq : Covers ds qs) :
    Covers (cs ++ ds) (ps ++ qs) := by
  refine ⟨by rw [spell_append, hp.spells, hq.spells], ?_⟩
  intro p hm
  rcases List.mem_append.mp hm with hm | hm
  · exact hp.nonempty p hm
  · exact hq.nonempty p hm

/-- A change of kinds alone keeps a cover. -/
theorem of_chars_eq {cs : List Char} {ps qs : List Piece} (h : Covers cs ps)
    (he : qs.map (·.chars) = ps.map (·.chars)) : Covers cs qs := by
  have hspell (rs : List Piece) : spell rs = (rs.map (·.chars)).flatten := by
    simp [spell, List.flatMap_def]
  refine ⟨by rw [hspell, he, ← hspell, h.spells], ?_⟩
  intro q hq
  have hm : q.chars ∈ ps.map (·.chars) := he ▸ List.mem_map_of_mem hq
  obtain ⟨p, hp, hpq⟩ := List.mem_map.mp hm
  exact hpq ▸ h.nonempty p hp

end Covers

end Piece

/-- Scanning loses nothing but the characters that it is told to skip. A rule may ask for more
characters than there are, and then takes all of them. -/
theorem Rule.covers_scan (rule : Rule) (skip : Nat) (before cs : List Char) :
    Piece.Covers (cs.drop skip) (rule.scan skip before cs) := by
  fun_induction Rule.scan rule skip before cs with
  | case1 => simpa using Piece.Covers.nil
  | case2 before skip c cs ih => simpa using ih
  | case3 before c cs more hr ih =>
    refine ⟨?_, Piece.nonempty_of_mem_prepend (by simp) ih.nonempty⟩
    simp [Piece.spell_prepend, ih.spells]
  | case4 before c cs kind more hr ih =>
    have h := (Piece.Covers.singleton (p := ⟨kind, c :: cs.take more⟩) (by simp)).append ih
    simpa using h

theorem Rule.covers_split (rule : Rule) (cs : List Char) : Piece.Covers cs (rule.split cs) :=
  rule.covers_scan 0 [] cs

theorem Lexer.chars_markBetween (waiting : Bool) (ps : List Piece) :
    (markBetween waiting ps).map (·.chars) = ps.map (·.chars) := by
  fun_induction markBetween waiting ps <;> simp_all

namespace Piece.Covers

/-- Splitting the unclassified pieces keeps a cover if every split is a cover. -/
theorem refine {split : List Char → List Piece} (hs : ∀ cs, Covers cs (split cs)) {cs : List Char}
    {ps : List Piece} (h : Covers cs ps) : Covers cs (Piece.refine split ps) := by
  obtain ⟨rfl, hne⟩ := h
  induction ps with
  | nil => exact nil
  | cons p ps ih =>
    have hp : Covers p.chars (if p.kind = .unknown then split p.chars else [p]) := by
      split
      · exact hs p.chars
      · exact singleton (hne p List.mem_cons_self)
    exact hp.append (ih fun q hq => hne q (List.mem_cons_of_mem _ hq))

theorem classify (kindOf? : List Char → Option TokenKind) {cs : List Char} {ps : List Piece}
    (h : Covers cs ps) : Covers cs (Piece.classify kindOf? ps) := by
  apply h.of_chars_eq
  simp only [Piece.classify, List.map_map]
  apply List.map_congr_left
  intro p _
  simp only [Function.comp_apply]
  split
  · split <;> rfl
  · rfl

theorem markBetween (waiting : Bool) {cs : List Char} {ps : List Piece} (h : Covers cs ps) :
    Covers cs (Lexer.markBetween waiting ps) :=
  h.of_chars_eq (Lexer.chars_markBetween waiting ps)

theorem foldl_refine (rules : List Rule) {cs : List Char} {ps : List Piece} (h : Covers cs ps) :
    Covers cs (rules.foldl (fun ps rule => Piece.refine rule.split ps) ps) := by
  induction rules generalizing ps with
  | nil => exact h
  | cons rule rules ih => exact ih (h.refine rule.covers_split)

theorem foldl_classify (stages : List (List Char → Option TokenKind)) {cs : List Char}
    {ps : List Piece} (h : Covers cs ps) :
    Covers cs (stages.foldl (fun ps kindOf? => Piece.classify kindOf? ps) ps) := by
  induction stages generalizing ps with
  | nil => exact h
  | cons kindOf? stages ih => exact ih (h.classify kindOf?)

end Piece.Covers

/-- The spans stand one after the other from `start` to `stop`, and none of them is empty. -/
inductive Span.Tile : (start stop : Nat) → List Span → Prop where
  | nil (n : Nat) : Tile n n []
  | cons {s : Span} {ss : List Span} {stop : Nat} (nonempty : s.start < s.stop)
      (rest : Tile s.stop stop ss) : Tile s.start stop (s :: ss)

theorem Span.Tile.of_append {start stop : Nat} {ss rs : List Span}
    (h : Tile start stop (ss ++ rs)) : ∃ mid, Tile start mid ss ∧ Tile mid stop rs := by
  induction ss generalizing start with
  | nil => exact ⟨start, .nil start, h⟩
  | cons s ss ih =>
    cases h with
    | cons hs hrest =>
      obtain ⟨mid, hss, hrs⟩ := ih hrest
      exact ⟨mid, .cons hs hss, hrs⟩

def Span.OnBoundaries (source : String) (s : Span) : Prop :=
  String.Pos.Raw.IsValid source ⟨s.start⟩ ∧ String.Pos.Raw.IsValid source ⟨s.stop⟩

namespace Lexer

theorem covers_pieces (cs : List Char) : Piece.Covers cs (pieces cs) := by
  have hstart : Piece.Covers cs (if cs.isEmpty then [] else [⟨.unknown, cs⟩]) := by
    cases cs with
    | nil => exact .nil
    | cons c cs => exact .singleton (p := ⟨.unknown, c :: cs⟩) (by simp)
  have hnamed := (hstart.foldl_refine cutting).foldl_classify naming
  have hnumbered := (hnamed.refine Words.relations.covers_split).classify remaining
  unfold pieces
  exact (hnumbered.markBetween false).classify _

/-- What no stage has classified is a word in the end. -/
theorem kind_ne_unknown_of_mem_pieces {cs : List Char} {p : Piece} (h : p ∈ pieces cs) :
    p.kind ≠ .unknown := by
  unfold pieces at h
  obtain ⟨q, -, rfl⟩ := List.mem_map.mp h
  by_cases hq : q.kind = .unknown
  · simp [hq]
  · simp [hq]

section Layout
variable {source : String} {front : List Char} {ps : List Piece}

private theorem tile_layout (hne : ∀ p ∈ ps, p.chars ≠ []) (start : Nat) :
    Span.Tile start (start + Text.byteLength (Piece.spell ps))
      ((layout source start ps).map (·.span)) := by
  induction ps generalizing start with
  | nil => exact .nil start
  | cons p ps ih =>
    have hp := Text.byteLength_pos (hne p List.mem_cons_self)
    have hrest := ih (fun q hq => hne q (List.mem_cons_of_mem _ hq))
      (start + Text.byteLength p.chars)
    rw [Piece.spell_cons, Text.byteLength_append, ← Nat.add_assoc]
    exact .cons (s := ⟨start, _⟩) (by simpa using hp) hrest

/-- Tokens that are laid out after the front part of a text cover their own pieces of it. -/
theorem slices_layout (h : source.toList = front ++ Piece.spell ps) :
    (layout source (Text.byteLength front) ps).map (·.slice) =
      ps.map fun p => String.ofList p.chars := by
  induction ps generalizing front with
  | nil => rfl
  | cons p ps ih =>
    have hs : source.toList = (front ++ p.chars) ++ Piece.spell ps := by
      rw [h, Piece.spell_cons, List.append_assoc]
    have hrest := ih hs
    rw [Text.byteLength_append] at hrest
    rw [layout, List.map_cons, List.map_cons, hrest]
    exact congrArg (· :: _) (Text.slice_between hs)

private theorem onBoundaries_layout (h : source.toList = front ++ Piece.spell ps) :
    ∀ t ∈ layout source (Text.byteLength front) ps, t.span.OnBoundaries source := by
  induction ps generalizing front with
  | nil => simp [layout]
  | cons p ps ih =>
    have hs : source.toList = (front ++ p.chars) ++ Piece.spell ps := by
      rw [h, Piece.spell_cons, List.append_assoc]
    have hrest := ih hs
    have hstop := Text.isValid_byteLength hs
    rw [Text.byteLength_append] at hrest hstop
    intro t ht
    rcases List.mem_cons.mp ht with rfl | ht
    · exact ⟨Text.isValid_byteLength h, hstop⟩
    · exact hrest t ht

theorem source_of_mem_layout {start : Nat} {t : Token} (h : t ∈ layout source start ps) :
    t.source = source := by
  induction ps generalizing start with
  | nil => simp [layout] at h
  | cons p ps ih =>
    rcases List.mem_cons.mp h with rfl | h
    · rfl
    · exact ih h

theorem kinds_layout (start : Nat) : (layout source start ps).map (·.kind) = ps.map (·.kind) := by
  induction ps generalizing start with
  | nil => rfl
  | cons p ps ih => simp [layout, ih]

private theorem join_ofList (ps : List Piece) :
    String.join (ps.map fun p => String.ofList p.chars) = String.ofList (Piece.spell ps) := by
  rw [← String.toList_inj]
  simp [Piece.spell, List.flatMap_def, Function.comp_def]

/-- Pieces that cover a text are laid out as a partition of it. -/
theorem partition_layout (h : Piece.Covers source.toList ps) :
    Span.Tile 0 source.utf8ByteSize ((layout source 0 ps).map (·.span)) ∧
      (∀ t ∈ layout source 0 ps, t.source = source ∧ t.span.OnBoundaries source) ∧
      String.join ((layout source 0 ps).map (·.slice)) = source := by
  obtain ⟨hspells, hne⟩ := h
  have hs : source.toList = [] ++ Piece.spell ps := hspells.symm
  have htile : Span.Tile 0 _ ((layout source 0 ps).map (·.span)) := tile_layout hne 0
  rw [hspells, Text.byteLength_toList, Nat.zero_add] at htile
  refine ⟨htile, ?_, ?_⟩
  · intro t ht
    exact ⟨source_of_mem_layout ht, onBoundaries_layout hs t ht⟩
  · calc
      _ = String.join (ps.map fun p => String.ofList p.chars) :=
        congrArg String.join (slices_layout hs)
      _ = source := by rw [join_ofList, hspells, String.ofList_toList]

end Layout

theorem kind_ne_unknown_of_mem_tokens {text : String} {t : Token} (h : t ∈ tokens text) :
    t.kind ≠ .unknown := by
  have hk := List.mem_map_of_mem (f := Token.kind) h
  rw [tokens, kinds_layout] at hk
  obtain ⟨p, hp, hpt⟩ := List.mem_map.mp hk
  exact hpt ▸ kind_ne_unknown_of_mem_pieces hp

/-- The tokens of any text are a partition of its bytes: their spans are not empty, lie between
characters and stand one after the other from the first byte to the last, every token is
classified, and the texts of the tokens in order make up the text. -/
theorem tokens_partition (text : String) :
    Span.Tile 0 text.utf8ByteSize ((tokens text).map (·.span)) ∧
      (∀ t ∈ tokens text, t.source = text ∧ t.kind ≠ .unknown ∧ t.span.OnBoundaries text) ∧
      String.join ((tokens text).map (·.slice)) = text ∧ (tokens text = [] ↔ text = "") := by
  obtain ⟨htile, hplaced, hjoin⟩ := partition_layout (covers_pieces text.toList)
  rw [← tokens] at htile hplaced hjoin
  refine ⟨htile, ?_, hjoin, ?_⟩
  · intro t ht
    obtain ⟨hsource, hbounds⟩ := hplaced t ht
    exact ⟨hsource, kind_ne_unknown_of_mem_tokens ht, hbounds⟩
  · constructor
    · intro hnil
      rw [← hjoin, hnil]
      rfl
    · rintro rfl
      rfl

end Lexer

end PipeQuery
