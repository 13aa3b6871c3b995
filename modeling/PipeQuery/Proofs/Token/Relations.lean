import Mathlib.Data.List.Chain
import PipeQuery.Proofs.Token.Spacing

/-!
Blanks around relations. Text between blanks and marks is named as a whole before relations are cut
off in it, and what is cut off from a relation gets no name any more. So blanks around relations
keep the lexemes of a text where what stands at them has no name of its own.
-/
namespace PipeQuery

open Piece

namespace TokenKind

def isRelation : TokenKind → Bool
  | .relation _ => true
  | _ => false

end TokenKind

namespace Piece

private theorem classify_unknown (kindOf? : List Char → Option TokenKind) (cs : List Char) :
    classify kindOf? [⟨.unknown, cs⟩] = [⟨(kindOf? cs).getD .unknown, cs⟩] := by
  cases h : kindOf? cs <;> simp [classify, h]

private theorem classify_eq_map (kindOf? : List Char → Option TokenKind) : ∃ rename : Piece → Piece,
    (∀ ps, classify kindOf? ps = ps.map rename) ∧ ∀ p, p.kind ≠ .unknown → rename p = p :=
  ⟨_, fun _ => rfl, fun _ hp => if_neg hp⟩

theorem mem_classify {kindOf? : List Char → Option TokenKind} {ps : List Piece} {p : Piece}
    (hp : p ∈ classify kindOf? ps) : (p ∈ ps ∧ p.kind ≠ .unknown) ∨
      ⟨.unknown, p.chars⟩ ∈ ps ∧ p.kind = (kindOf? p.chars).getD .unknown := by
  obtain ⟨⟨kind, chars⟩, hq, rfl⟩ := List.mem_map.mp hp
  by_cases hkind : kind = .unknown
  · subst hkind
    cases h : kindOf? chars <;> simp [h, hq]
  · simp [hkind, hq]

private theorem kind_of_mem_blur (known : List TokenKind) (ps : List Piece) :
    ∀ p ∈ blur known ps, p.kind ∈ known ∨ p.kind = .unknown := by
  induction ps with
  | nil => simp [blur]
  | cons q ps ih =>
    by_cases hq : q.kind ∈ known
    · rw [blur_cons_known hq]
      exact List.forall_mem_cons.mpr ⟨.inl hq, ih⟩
    · rw [blur_cons hq]
      cases hview : blur known ps with
      | nil => simp [prepend]
      | cons r view =>
        rw [hview] at ih
        obtain ⟨hr, hrest⟩ := List.forall_mem_cons.mp ih
        by_cases hkind : r.kind = .unknown
        · obtain ⟨kind, chars⟩ := r
          cases hkind
          exact List.forall_mem_cons.mpr ⟨.inr rfl, hrest⟩
        · rw [prepend_cons hkind]
          exact List.forall_mem_cons.mpr ⟨.inr rfl, ih⟩

/-- In a view no two unclassified pieces are neighbours. -/
theorem isChain_of_blur_eq {known : List TokenKind} {ps : List Piece}
    (hne : ∀ p ∈ ps, p.chars ≠ []) (h : blur known ps = ps) :
    ps.IsChain fun p q => p.kind ∈ known ∨ q.kind ∈ known := by
  induction ps with
  | nil => exact .nil
  | cons p ps ih =>
    obtain ⟨-, hrest⟩ := List.forall_mem_cons.mp hne
    rw [List.isChain_cons]
    by_cases hp : p.kind ∈ known
    · rw [blur_cons_known hp] at h
      exact ⟨fun _ _ => .inl hp, ih hrest (List.cons.inj h).2⟩
    · obtain ⟨-, htail, hhead⟩ := blur_eq_cons hrest hp h
      refine ⟨?_, ih hrest htail⟩
      intro q hq
      rw [← htail] at hq
      have hmem := List.mem_of_mem_head? hq
      exact .inr ((kind_of_mem_blur known ps q hmem).resolve_right (hhead q (htail ▸ hq)))

end Piece

namespace Words

/-- Where relations start. -/
theorem relations_leave {before : List Char} {c : Char} {cs : List Char}
    (hc : Text.isRelational c = false) (hnext : cs.head? ≠ some '=') :
    relations before (c :: cs) = .leave 0 := by
  unfold relations
  split
  case h_7 => rfl
  all_goals
    next heq =>
      cases heq
      first
        | exact absurd rfl hnext
        | exact absurd hc (by decide)

theorem exists_relation_of_mem_split {text : List Char} {p : Piece} (hp : p ∈ relations.split text)
    (hkind : p.kind ≠ .unknown) : ∃ r : Relation, p = ⟨.relation r, r.symbol.toList⟩ := by
  obtain ⟨front, back, heq⟩ := List.append_of_mem hp
  obtain ⟨more, hmark, hchars⟩ := Rule.mark_of_scan heq hkind
  obtain ⟨kind, chars⟩ := p
  simp only at hmark hchars
  revert hmark
  generalize chars ++ spell back = text at hchars
  unfold relations
  split
  case h_7 =>
    intro hmark
    cases hmark
  all_goals
    intro hmark
    obtain ⟨rfl, rfl⟩ := Cut.mark.inj hmark
    subst hchars
    exact ⟨_, rfl⟩

/-- Text that relations have been cut off from holds no more of them. -/
theorem relations_split_of_mem {text : List Char} {p : Piece} (hp : p ∈ relations.split text)
    (hkind : p.kind = .unknown) : relations.split p.chars = [p] := by
  have hnot (c : Char) (hc : c ∈ p.chars) : Text.isRelational c = false := by
    obtain ⟨before, back, hleave⟩ := steps_relations.leave_of_mem hp hkind hc
    rw [← Bool.not_eq_true]
    intro hrelational
    have hmem : c = '=' ∨ c = '<' ∨ c = '>' := by simpa [Text.isRelational] using hrelational
    revert hleave
    rcases hmem with rfl | rfl | rfl <;> unfold relations <;> split <;> simp_all
  have hne : p.chars ≠ [] := (relations.covers_split text).nonempty p hp
  have hsplit := @Rule.split_of_leave_all relations p.chars hne (by
    intro front c back heq
    refine relations_leave (hnot c (by simp [heq])) ?_
    intro hhead
    have hequal := hnot '=' (by rw [heq]; simp [List.mem_of_mem_head? hhead])
    exact absurd hequal (by decide))
  rw [hsplit]
  obtain ⟨kind, chars⟩ := p
  cases hkind
  rfl

end Words

namespace Lexer

/-- The name that a text has of its own: a keyword, a date-time, a duration or an arithmetic
operator. -/
def name? (cs : List Char) : Option TokenKind := naming.findSome? (· cs)

def nameKinds : List TokenKind :=
  Words.keywords.map (·.2) ++ [.dateTime, .duration] ++ Arith.all.map .arith

private theorem mem_nameKinds {kindOf? : List Char → Option TokenKind} (h : kindOf? ∈ naming)
    {cs : List Char} {kind : TokenKind} (hkind : kindOf? cs = some kind) : kind ∈ nameKinds := by
  have hshape {q : Bool} {other : TokenKind} (hother : other ∈ nameKinds)
      (h : (if q then some other else none) = some kind) : kind ∈ nameKinds := by
    split at h <;> cases h
    exact hother
  simp only [naming, List.mem_cons, List.not_mem_nil, or_false] at h
  rcases h with rfl | rfl | rfl | rfl
  · exact List.mem_append_left _ (List.mem_append_left _ (Words.mem_of_keyword? hkind))
  · exact hshape (by decide) hkind
  · exact hshape (by decide) hkind
  · exact List.mem_append_right _ (Words.mem_of_arith? hkind)

private theorem mem_of_name? {cs : List Char} {kind : TokenKind} (h : name? cs = some kind) :
    kind ∈ nameKinds := by
  obtain ⟨kindOf?, hmem, hkind⟩ := List.exists_of_findSome?_eq_some h
  exact mem_nameKinds hmem hkind

private theorem unknown_not_mem_nameKinds : .unknown ∉ nameKinds := by decide

/-- The naming stages, one after the other, give a text its name. -/
theorem foldl_naming (cs : List Char) :
    naming.foldl (fun ps kindOf? => classify kindOf? ps) [⟨.unknown, cs⟩] =
      [⟨(name? cs).getD .unknown, cs⟩] := by
  have hknown {kind : TokenKind} (hkind : kind ≠ .unknown)
      (stages : List (List Char → Option TokenKind)) :
      stages.foldl (fun ps kindOf? => classify kindOf? ps) [⟨kind, cs⟩] = [⟨kind, cs⟩] := by
    induction stages with
    | nil => rfl
    | cons kindOf? stages ih =>
      rw [List.foldl_cons]
      simpa [classify, hkind] using ih
  have hall (stages : List (List Char → Option TokenKind)) (h : stages ⊆ naming) :
      stages.foldl (fun ps kindOf? => classify kindOf? ps) [⟨.unknown, cs⟩] =
        [⟨(stages.findSome? (· cs)).getD .unknown, cs⟩] := by
    induction stages with
    | nil => rfl
    | cons kindOf? stages ih =>
      obtain ⟨hmem, hrest⟩ := List.cons_subset.mp h
      rw [List.foldl_cons, List.findSome?_cons]
      cases hkind : kindOf? cs with
      | none =>
        rw [classify_unknown, hkind]
        exact ih hrest
      | some kind =>
        have hne : kind ≠ .unknown := by
          rintro rfl
          exact unknown_not_mem_nameKinds (mem_nameKinds hmem hkind)
        rw [classify_unknown, hkind]
        exact hknown hne stages
  exact hall naming (List.Subset.refl _)

theorem nameAll_of_some {cs : List Char} {kind : TokenKind} (h : name? cs = some kind) :
    nameAll [⟨.unknown, cs⟩] = [⟨kind, cs⟩] := by
  have hne : kind ≠ .unknown := by
    rintro rfl
    exact unknown_not_mem_nameKinds (mem_of_name? h)
  rw [nameAll, foldl_naming, h, Option.getD_some, refine_known hne]
  simp [classify, hne, refine]

theorem nameAll_of_none {cs : List Char} (h : name? cs = none) :
    nameAll [⟨.unknown, cs⟩] = classify remaining (Words.relations.split cs) := by
  rw [nameAll, foldl_naming, h, Option.getD_none, refine_unknown]
  simp [refine]

private theorem nameAll_relation (r : Relation) :
    nameAll [⟨.unknown, r.symbol.toList⟩] = [⟨.relation r, r.symbol.toList⟩] := by
  cases r <;> rfl

/-- What stands alone is what it is in a text, if it has no name of its own there. -/
theorem nameAll_self {text : List Char} {p : Piece} (hp : p ∈ nameAll [⟨.unknown, text⟩])
    (hname : p.kind = .unknown ∨ p.kind = .number → name? p.chars = none) :
    nameAll [⟨.unknown, p.chars⟩] = [p] := by
  cases htext : name? text with
  | some kind =>
    rw [nameAll_of_some htext] at hp
    cases List.mem_singleton.mp hp
    exact nameAll_of_some htext
  | none =>
    rw [nameAll_of_none htext] at hp
    obtain ⟨kind, chars⟩ := p
    rcases mem_classify hp with ⟨hmem, hkind⟩ | ⟨hmem, hkind⟩
    · obtain ⟨r, hr⟩ := Words.exists_relation_of_mem_split hmem hkind
      cases hr
      exact nameAll_relation r
    · have hnone : name? chars = none := by
        apply hname
        rw [hkind]
        unfold remaining
        split <;> simp
      rw [nameAll_of_none hnone, Words.relations_split_of_mem hmem rfl, classify_unknown, ← hkind]

/-- The kinds of names, words, numbers and relations are none that a cutting stage finds. -/
theorem kind_of_mem_nameAll {cs : List Char} {p : Piece} (hp : p ∈ nameAll [⟨.unknown, cs⟩]) :
    p.kind ∉ kindsOf stages := by
  cases hname : name? cs with
  | some kind =>
    rw [nameAll_of_some hname] at hp
    cases List.mem_singleton.mp hp
    have hall : nameKinds.all fun kind => !(kindsOf stages).contains kind := by decide
    simpa using List.all_eq_true.mp hall kind (mem_of_name? hname)
  | none =>
    rw [nameAll_of_none hname] at hp
    rcases mem_classify hp with ⟨hmem, hkind⟩ | ⟨hmem, hkind⟩
    · obtain ⟨r, rfl⟩ := Words.exists_relation_of_mem_split hmem hkind
      cases r <;> decide
    · rw [hkind]
      unfold remaining
      split <;> decide

private theorem isIgnorable_eq_false {kind : TokenKind} (h : kind ∉ kindsOf stages) :
    kind.isIgnorable = false := by
  rw [← Bool.not_eq_true]
  intro hignorable
  have hkind : kind = .whitespace ∨ kind = .comment ∨ kind = .blockComment := by
    cases kind <;> simp_all [TokenKind.isIgnorable]
  rcases hkind with rfl | rfl | rfl <;> exact h (by decide)

/-- Text without blanks, pipes and commas is named as a whole. -/
theorem found_of_plain {cs : List Char} (hne : cs ≠ [])
    (hcs : ∀ c ∈ cs, Text.isBlank c = false ∧ c ≠ '|' ∧ c ≠ ',') :
    found cs = nameAll [⟨.unknown, cs⟩] := by
  have hblanks : Words.blanks.split cs = [⟨.unknown, cs⟩] := by
    refine Rule.split_of_leave_all hne ?_
    intro front c back heq
    simp [Words.blanks, (hcs c (by simp [heq])).1]
  have hpipe : (Rule.single .pipe (· == '|')).split cs = [⟨.unknown, cs⟩] := by
    refine Rule.split_of_leave_all hne ?_
    intro front c back heq
    simp [Rule.single, (hcs c (by simp [heq])).2.1]
  have hcomma : (Rule.single .comma (· == ',')).split cs = [⟨.unknown, cs⟩] := by
    refine Rule.split_of_leave_all hne ?_
    intro front c back heq
    simp [Rule.single, (hcs c (by simp [heq])).2.2]
  have hrefine {split : List Char → List Piece} (h : split cs = [⟨.unknown, cs⟩]) :
      refine split [⟨.unknown, cs⟩] = [⟨.unknown, cs⟩] := by
    simp [refine, h]
  rw [found, hblanks, polish_eq, hrefine hpipe, hrefine hcomma, meaningful, List.filter_eq_self]
  intro p hp
  rw [isIgnorable_eq_false (kind_of_mem_nameAll hp)]
  rfl

def Settles (p q : Piece) : Prop :=
  (q = p ∧ p.kind ≠ .unknown) ∨ (p.kind = .logic .and ∧ q = ⟨.betweenAnd, p.chars⟩) ∨
    (p.kind = .unknown ∧ q = ⟨.word, p.chars⟩)

private theorem settles_conclude (ps : List Piece) : List.Forall₂ Settles ps (conclude ps) := by
  rw [conclude, classify, List.forall₂_map_right_iff]
  refine (separates_markBetween false ps).imp ?_
  rintro p q (rfl | ⟨hkind, rfl⟩)
  · by_cases hkind : q.kind = .unknown
    · exact .inr (.inr ⟨hkind, by simp [hkind]⟩)
    · exact .inl ⟨by simp [hkind], hkind⟩
  · exact .inr (.inl ⟨hkind, by simp⟩)

namespace Settles
variable {p q : Piece}

theorem chars_eq (h : Settles p q) : q.chars = p.chars := by
  rcases h with ⟨rfl, -⟩ | ⟨-, rfl⟩ | ⟨-, rfl⟩ <;> rfl

private theorem eq_of_mem (h : Settles p q) (hq : q.kind ∈ kindsOf stages) : q = p := by
  rcases h with ⟨rfl, -⟩ | ⟨-, rfl⟩ | ⟨-, rfl⟩
  · rfl
  · exact absurd (show TokenKind.betweenAnd ∈ _ from hq) (by decide)
  · exact absurd (show TokenKind.word ∈ _ from hq) (by decide)

private theorem mem_kindsOf_iff (h : Settles p q) :
    p.kind ∈ kindsOf stages ↔ q.kind ∈ kindsOf stages := by
  rcases h with ⟨rfl, -⟩ | ⟨hp, rfl⟩ | ⟨hp, rfl⟩
  · rfl
  · exact iff_of_false (by rw [hp]; decide) (show TokenKind.betweenAnd ∉ _ by decide)
  · exact iff_of_false (by rw [hp]; decide) (show TokenKind.word ∉ _ by decide)

private theorem isRelation_eq (h : Settles p q) : p.kind.isRelation = q.kind.isRelation := by
  rcases h with ⟨rfl, -⟩ | ⟨hp, rfl⟩ | ⟨hp, rfl⟩
  · rfl
  · rw [hp]
    rfl
  · rw [hp]
    rfl

end Settles

/-- Before the last stages, text between lexemes of the cutting stages is named. -/
theorem rough_eq (cs : List Char) : rough cs = nameAll (blur (kindsOf stages) (pieces cs)) := by
  rw [← @runAll_start cs stages [] (by simp), rough, polish_eq, firstCut_eq_runAll]
  simp only [runAll, stages, List.take, List.foldl_cons, List.foldl_nil]

theorem settles_pieces (cs : List Char) : List.Forall₂ Settles (rough cs) (pieces cs) := by
  rw [pieces_eq_rough]
  exact settles_conclude (rough cs)

/-- A piece that no cutting stage has found comes from the text between those that they find. -/
theorem exists_of_mem_rough {cs : List Char} {p : Piece} (hp : p ∈ rough cs)
    (hkind : p.kind ∉ kindsOf stages) : ∃ text, p ∈ nameAll [⟨.unknown, text⟩] := by
  have hview := kind_of_mem_blur (kindsOf stages) (pieces cs)
  rw [rough_eq] at hp
  generalize blur (kindsOf stages) (pieces cs) = view at hp hview
  induction view with
  | nil => cases hp
  | cons q view ih =>
    obtain ⟨hq, hrest⟩ := List.forall_mem_cons.mp hview
    rcases hq with hq | hq
    · have hknown : q.kind ≠ .unknown := fun h => absurd (h ▸ hq) (by decide)
      rw [nameAll_cons_known hknown] at hp
      rcases List.mem_cons.mp hp with rfl | hp
      · exact absurd hq hkind
      · exact ih hp hrest
    · rw [← List.singleton_append, nameAll_append] at hp
      rcases List.mem_append.mp hp with hp | hp
      · obtain ⟨kind, chars⟩ := q
        cases hq
        exact ⟨chars, hp⟩
      · exact ih hp hrest

/-- Lexemes of the kind divide the text: no two others are neighbours. -/
def divides (kind : TokenKind) : Bool := (kindsOf stages).contains kind || kind.isRelation

private theorem isChain_nameAll_unknown (cs : List Char) :
    (nameAll [⟨.unknown, cs⟩]).IsChain fun p q => divides p.kind ∨ divides q.kind := by
  cases hname : name? cs with
  | some kind =>
    rw [nameAll_of_some hname]
    exact .singleton _
  | none =>
    obtain ⟨rename, hclassify, hkeep⟩ := classify_eq_map remaining
    have hsplit := isChain_of_blur_eq (Words.relations.covers_split cs).nonempty
      (blur_scan Words.seeks_relations (by decide) (List.Subset.refl _) 0 [] cs)
    have hrelation {p : Piece} (hp : p.kind ∈ Relation.all.map .relation) :
        divides (rename p).kind := by
      obtain ⟨r, -, hr⟩ := List.mem_map.mp hp
      rw [hkeep p (by simp [← hr]), ← hr]
      simp [divides, TokenKind.isRelation]
    rw [nameAll_of_none hname, hclassify, List.isChain_map]
    refine hsplit.imp ?_
    rintro p q (hp | hq)
    · exact .inl (hrelation hp)
    · exact .inr (hrelation hq)

/-- Between two pieces that no cutting stage finds stands one that does, or one of them is a
relation. -/
theorem isChain_rough (cs : List Char) :
    (rough cs).IsChain fun p q => divides p.kind ∨ divides q.kind := by
  have hview := kind_of_mem_blur (kindsOf stages) (pieces cs)
  have hblur := @blur_runAll cs stages [] (by simp)
  rw [@runAll_start cs stages [] (by simp)] at hblur
  have hchain := isChain_of_blur_eq (nonempty_blur fun p hp => (nonempty_known cs p hp).1) hblur
  rw [rough_eq]
  generalize blur (kindsOf stages) (pieces cs) = view at hview hchain
  induction view with
  | nil => exact .nil
  | cons q view ih =>
    obtain ⟨hq, hrest⟩ := List.forall_mem_cons.mp hview
    obtain ⟨hnext, htail⟩ := List.isChain_cons.mp hchain
    have hchain' := ih hrest htail
    rcases hq with hq | hq
    · have hknown : q.kind ≠ .unknown := fun h => absurd (h ▸ hq) (by decide)
      rw [nameAll_cons_known hknown, List.isChain_cons]
      exact ⟨fun _ _ => .inl (by simp [divides, hq]), hchain'⟩
    · obtain ⟨kind, chars⟩ := q
      cases hq
      rw [← List.singleton_append, nameAll_append, List.isChain_append]
      refine ⟨isChain_nameAll_unknown chars, hchain', ?_⟩
      intro p _ r hr
      cases view with
      | nil => cases hr
      | cons q view =>
        have hq : q.kind ∈ kindsOf stages :=
          (hnext q rfl).resolve_left (show TokenKind.unknown ∉ _ by decide)
        have hknown : q.kind ≠ .unknown := fun h => absurd (h ▸ hq) (by decide)
        rw [nameAll_cons_known hknown] at hr
        cases hr
        exact .inr (by simp [divides, hq])

private theorem isChain_pieces (cs : List Char) :
    (pieces cs).IsChain fun p q => divides p.kind ∨ divides q.kind := by
  have hsame : (rough cs).map (divides ·.kind) = (pieces cs).map (divides ·.kind) := by
    have hsettles := settles_pieces cs
    generalize rough cs = ps at hsettles ⊢
    generalize pieces cs = qs at hsettles ⊢
    induction hsettles with
    | nil => rfl
    | cons h _ ih =>
      rw [List.map_cons, List.map_cons, ih, divides, divides, h.isRelation_eq]
      simp [h.mem_kindsOf_iff]
  have hmap (ps : List Piece) :
      (ps.map (divides ·.kind)).IsChain (fun a b => a = true ∨ b = true) ↔
        ps.IsChain fun p q => divides p.kind ∨ divides q.kind :=
    List.isChain_map _
  rw [← hmap, ← hsame, hmap]
  exact isChain_rough cs

/-- Blanks around relations leave no neighbours that the cutting stages do not find. -/
theorem isChain_spread {ps : List Piece}
    (h : ps.IsChain fun p q => divides p.kind ∨ divides q.kind) :
    (spread TokenKind.isRelation ps).IsChain fun p q =>
      p.kind ∈ kindsOf stages ∨ q.kind ∈ kindsOf stages := by
  have hspace : (Piece.mk .whitespace [' ']).kind ∈ kindsOf stages := by
    show TokenKind.whitespace ∈ _
    decide
  induction ps with
  | nil => exact .nil
  | cons p ps ih =>
    obtain ⟨hnext, htail⟩ := List.isChain_cons.mp h
    by_cases hp : p.kind.isRelation
    · rw [spread_cons_apart hp, List.isChain_cons_cons, List.isChain_cons_cons, List.isChain_cons]
      exact ⟨.inl hspace, .inr hspace, fun _ _ => .inl hspace, ih htail⟩
    · have hp' : p.kind.isRelation = false := by simpa using hp
      rw [spread_cons hp', List.isChain_cons]
      refine ⟨?_, ih htail⟩
      intro r hr
      cases ps with
      | nil => cases hr
      | cons q ps =>
        by_cases hq : q.kind.isRelation
        · rw [spread_cons_apart hq] at hr
          cases hr
          exact .inr hspace
        · have hq' : q.kind.isRelation = false := by simpa using hq
          rw [spread_cons hq', List.head?_cons, Option.mem_some_iff] at hr
          subst hr
          simpa [divides, hp', hq'] using hnext q rfl

def parts (p : Piece) : List Piece :=
  if p.kind ∈ kindsOf stages then meaningful [p] else found p.chars

private theorem kindsOf_stages : kindsOf stages = firstKinds ++ [.whitespace, .pipe, .comma] := rfl

/-- A piece that a cutting stage finds divides the text. -/
theorem sift_cons_cut {p : Piece} (hp : p.Sound) (hk : p.kind ∈ kindsOf stages) (text : List Char)
    (ps : List Piece) : sift text (p :: ps) = found text ++ (meaningful [p] ++ sift [] ps) := by
  by_cases hfirst : p.kind ∈ firstKinds
  · exact sift_cons_known hfirst text ps
  · rw [kindsOf_stages, List.mem_append, or_iff_right hfirst] at hk
    simp only [List.mem_cons, List.not_mem_nil, or_false] at hk
    rw [sift_cons hfirst]
    rcases hk with hk | hk | hk
    · rw [sift_blanks hp.nonempty (hp.blank hk), meaningful_cons_ignorable (by rw [hk]; rfl)]
      rfl
    · rw [hp.pipe hk, sift_pipe, meaningful_cons (by rw [hk]; rfl)]
      obtain ⟨kind, chars⟩ := p
      cases hk
      obtain rfl : chars = ['|'] := hp.pipe rfl
      rfl
    · rw [hp.comma hk, sift_comma, meaningful_cons (by rw [hk]; rfl)]
      obtain ⟨kind, chars⟩ := p
      cases hk
      obtain rfl : chars = [','] := hp.comma rfl
      rfl

/-- Where no two pieces that the cutting stages do not find are neighbours, every one is named
alone. -/
theorem sift_of_isChain {ps : List Piece} (hsound : ∀ p ∈ ps, p.Sound)
    (h : ps.IsChain fun p q => p.kind ∈ kindsOf stages ∨ q.kind ∈ kindsOf stages) :
    sift [] ps = ps.flatMap parts := by
  -- Text before the pieces stands alone if the first of them divides.
  have htext : ∀ text, (text = [] ∨ ∀ q, ps.head? = some q → q.kind ∈ kindsOf stages) →
      sift text ps = found text ++ ps.flatMap parts := by
    induction ps with
    | nil =>
      intro text _
      simp [sift]
    | cons p ps ih =>
      intro text hbefore
      obtain ⟨hp, hrest⟩ := List.forall_mem_cons.mp hsound
      obtain ⟨hnext, htail⟩ := List.isChain_cons.mp h
      by_cases hk : p.kind ∈ kindsOf stages
      · rw [sift_cons_cut hp hk, ih hrest htail [] (.inl rfl), found_nil, List.nil_append,
          List.flatMap_cons, parts, if_pos hk]
      · have hnil : text = [] := hbefore.resolve_right fun hhead => hk (hhead p rfl)
        have hnot : p.kind ∉ firstKinds := fun hmem => by
          rw [kindsOf_stages] at hk
          exact hk (List.mem_append_left _ hmem)
        have hhead : ∀ q, ps.head? = some q → q.kind ∈ kindsOf stages :=
          fun q hq => (hnext q hq).resolve_left hk
        rw [hnil, sift_cons hnot, List.nil_append, ih hrest htail p.chars (.inr hhead), found_nil,
          List.nil_append, List.flatMap_cons, parts, if_neg hk]
  rw [htext [] (.inl rfl), found_nil, List.nil_append]

private theorem flatMap_parts_spread (apart : TokenKind → Bool) (ps : List Piece) :
    (spread apart ps).flatMap parts = ps.flatMap parts := by
  have hspace : parts ⟨.whitespace, [' ']⟩ = [] := rfl
  induction ps with
  | nil => rfl
  | cons p ps ih =>
    by_cases hp : apart p.kind
    · rw [spread_cons_apart hp, List.flatMap_cons, List.flatMap_cons, List.flatMap_cons, hspace, ih,
        List.nil_append, List.nil_append, ← List.flatMap_cons]
    · rw [spread_cons (by simpa using hp), List.flatMap_cons, ih, ← List.flatMap_cons]

/-- Names, words, numbers and relations have no blanks, pipes and commas in them. -/
theorem parts_eq {p : Piece} (hp : p.Sound) (hk : p.kind ∉ kindsOf stages) :
    parts p = nameAll [⟨.unknown, p.chars⟩] := by
  have hshows : p.kind.hides = false := hides_mem_earlyKinds fun hmem => hk (by
    rw [kindsOf_stages]
    exact List.mem_append_left _ (List.mem_append_left _ hmem))
  rw [parts, if_neg hk]
  refine found_of_plain hp.nonempty fun c hc => ⟨?_, ?_, ?_⟩
  · rw [← Bool.not_eq_true]
    intro hblank
    rcases hp.tidy.blank hshows c hc hblank with ⟨hkind, -⟩ | ⟨hkind | hkind, -⟩ <;>
    · rw [hkind] at hk
      exact hk (by decide)
  · rintro rfl
    have hpipe := congrArg Piece.kind (hp.tidy.mark hshows _ hc _ rfl)
    rw [hpipe] at hk
    exact hk (by decide)
  · rintro rfl
    have hcomma := congrArg Piece.kind (hp.tidy.mark hshows _ hc _ rfl)
    rw [hcomma] at hk
    exact hk (by decide)

theorem covers_nameAll {cs : List Char} (hne : cs ≠ []) : Covers cs (nameAll [⟨.unknown, cs⟩]) := by
  have hstart : Covers cs [⟨.unknown, cs⟩] := @Covers.singleton ⟨.unknown, cs⟩ hne
  exact ((hstart.foldl_classify naming).refine Words.relations.covers_split).classify remaining

/-- A piece that stands alone is what it was, unless it has a name that it did not get. -/
theorem parts_eq_of_settles {cs : List Char} {p q : Piece} (hp : p ∈ rough cs) (hq : q ∈ pieces cs)
    (hsettles : Settles p q)
    (hname : q.kind = .word ∨ q.kind = .number → name? q.chars = none) :
    parts q = meaningful [p] := by
  by_cases hk : q.kind ∈ kindsOf stages
  · rw [parts, if_pos hk, hsettles.eq_of_mem hk]
  · have hk' : p.kind ∉ kindsOf stages := fun hmem => hk (hsettles.mem_kindsOf_iff.mp hmem)
    obtain ⟨text, htext⟩ := exists_of_mem_rough hp hk'
    rw [parts_eq (sound_of_mem_pieces hq) hk, hsettles.chars_eq,
      meaningful_cons (isIgnorable_eq_false hk')]
    refine nameAll_self htext ?_
    rw [← hsettles.chars_eq]
    rintro (hkind | hkind)
    · refine hname (.inl ?_)
      rcases hsettles with ⟨-, hne⟩ | ⟨hand, -⟩ | ⟨-, rfl⟩
      · exact absurd hkind hne
      · rw [hkind] at hand
        cases hand
      · rfl
    · refine hname (.inr ?_)
      rcases hsettles with ⟨rfl, -⟩ | ⟨hand, -⟩ | ⟨hunknown, -⟩
      · exact hkind
      · rw [hkind] at hand
        cases hand
      · rw [hkind] at hunknown
        cases hunknown

private theorem flatMap_parts {cs : List Char}
    (h : ∀ p ∈ pieces cs, p.kind = .word ∨ p.kind = .number → name? p.chars = none) :
    (pieces cs).flatMap parts = meaningful (rough cs) := by
  have hall {ps qs : List Piece} (hsettles : List.Forall₂ Settles ps qs) (hps : ps ⊆ rough cs)
      (hqs : qs ⊆ pieces cs) : qs.flatMap parts = meaningful ps := by
    induction hsettles with
    | nil => rfl
    | @cons p q ps qs hpq _ ih =>
      obtain ⟨hp, hps⟩ := List.cons_subset.mp hps
      obtain ⟨hq, hqs⟩ := List.cons_subset.mp hqs
      rw [List.flatMap_cons, ih hps hqs, parts_eq_of_settles hp hq hpq (h q hq),
        ← meaningful_append, List.singleton_append]
  exact hall (settles_pieces cs) (List.Subset.refl _) (List.Subset.refl _)

/-- If the pieces are what they are when each stands alone, so is every one of them. -/
theorem exists_of_flatMap_parts {ps : List Piece} (hsound : ∀ p ∈ ps, p.Sound)
    (h : List.Forall₂ Settles (ps.flatMap parts) (meaningful ps)) {q : Piece} (hq : q ∈ ps)
    (hk : q.kind ∉ kindsOf stages) : ∃ p, parts q = [p] ∧ Settles p q := by
  induction ps with
  | nil => cases hq
  | cons r ps ih =>
    obtain ⟨hr, hrest⟩ := List.forall_mem_cons.mp hsound
    by_cases hcut : r.kind ∈ kindsOf stages
    · have hne : q ≠ r := by
        rintro rfl
        exact hk hcut
      have hmem : q ∈ ps := (List.mem_cons.mp hq).resolve_left hne
      rw [List.flatMap_cons, parts, if_pos hcut] at h
      by_cases hignorable : r.kind.isIgnorable
      · rw [meaningful_cons_ignorable hignorable, meaningful_cons_ignorable hignorable] at h
        exact ih hrest h hmem
      · rw [meaningful_cons (by simpa using hignorable),
          meaningful_cons (by simpa using hignorable)] at h
        exact ih hrest (List.forall₂_cons.mp h).2 hmem
    · obtain ⟨hspells, hne⟩ := covers_nameAll hr.nonempty
      rw [← parts_eq hr hcut] at hspells hne
      rw [List.flatMap_cons, meaningful_cons (isIgnorable_eq_false hcut)] at h
      cases hparts : parts r with
      | nil =>
        rw [hparts] at hspells
        exact absurd hspells.symm hr.nonempty
      | cons p others =>
        rw [hparts] at h hspells hne
        obtain ⟨hpr, htail⟩ := List.forall₂_cons.mp h
        -- The first piece spells all, so there is no other.
        have hothers : others = [] := by
          rw [spell_cons, ← hpr.chars_eq, List.append_right_eq_self] at hspells
          cases others with
          | nil => rfl
          | cons s others =>
            rw [spell_cons] at hspells
            exact absurd (List.append_eq_nil_iff.mp hspells).1 (hne s (by simp))
        subst hothers
        rcases List.mem_cons.mp hq with rfl | hq
        · exact ⟨p, hparts, hpr⟩
        · exact ih hrest htail hq

/-- A word or number has no name when it stands alone, if it is one there. -/
theorem name?_eq_none_of_settles {p q : Piece} (hq : q.Sound) (hparts : parts q = [p])
    (hsettles : Settles p q) (hk : q.kind ∉ kindsOf stages)
    (hkind : q.kind = .word ∨ q.kind = .number) : name? q.chars = none := by
  rw [parts_eq hq hk] at hparts
  cases hname : name? q.chars with
  | none => rfl
  | some kind =>
    have hmem := mem_of_name? hname
    rw [nameAll_of_some hname] at hparts
    obtain rfl := List.singleton_inj.mp hparts
    rcases hsettles with ⟨heq, -⟩ | ⟨-, heq⟩ | ⟨hunknown, -⟩
    · have hsame : q.kind = kind := congrArg Piece.kind heq
      rw [← hsame] at hmem
      rcases hkind with hkind | hkind <;>
      · rw [hkind] at hmem
        exact absurd hmem (by decide)
    · rw [heq] at hkind
      simp at hkind
    · exact absurd (hunknown ▸ hmem) unknown_not_mem_nameKinds

private theorem not_mem_of_isRelation {kind : TokenKind} (h : kind.isRelation) :
    kind ∉ kindsOf stages ∧ kind ∉ nameKinds ∧ kind ∉ [.unknown, .number] := by
  obtain ⟨r, rfl⟩ : ∃ r, kind = .relation r := by
    cases kind <;> simp_all [TokenKind.isRelation]
  cases r <;> decide

/-- A relation is written with its symbol. -/
theorem exists_of_isRelation {cs : List Char} {p : Piece} (hp : p ∈ pieces cs)
    (hrelation : p.kind.isRelation) : ∃ r : Relation, p = ⟨.relation r, r.symbol.toList⟩ := by
  obtain ⟨hcut, hnamed, hother⟩ := not_mem_of_isRelation hrelation
  obtain ⟨q, hq, hsettles⟩ := exists_of_forall₂ (settles_pieces cs) hp
  have hsame : p = q := by
    rcases hsettles with ⟨rfl, -⟩ | ⟨-, rfl⟩ | ⟨-, rfl⟩
    · rfl
    · cases hrelation
    · cases hrelation
  subst hsame
  obtain ⟨text, htext⟩ := exists_of_mem_rough hq hcut
  cases hname : name? text with
  | some kind =>
    rw [nameAll_of_some hname] at htext
    cases List.mem_singleton.mp htext
    exact absurd (mem_of_name? hname) hnamed
  | none =>
    rw [nameAll_of_none hname] at htext
    rcases mem_classify htext with ⟨hmem, hkind⟩ | ⟨-, hkind⟩
    · exact Words.exists_relation_of_mem_split hmem hkind
    · refine absurd ?_ hother
      rw [hkind]
      unfold remaining
      split <;> simp

private theorem signs_relation (cs : List Char) : Signs TokenKind.isRelation (pieces cs) := by
  have hsymbol (r : Relation) : (r.symbol.toList.all Text.isSign &&
      r.symbol.toList.any fun c => Text.isDelimiter c && !Text.isBlank c) = true := by
    cases r <;> decide
  refine ⟨?_, ?_, ?_⟩
  · intro kind hkind
    obtain ⟨hcut, -, -⟩ := not_mem_of_isRelation hkind
    refine ⟨fun hmem => hcut ?_, isIgnorable_eq_false hcut⟩
    rw [kindsOf_stages]
    exact List.mem_append_left _ hmem
  · intro p hp hkind
    obtain ⟨r, rfl⟩ := exists_of_isRelation hp hkind
    exact List.all_eq_true.mp (Bool.and_eq_true_iff.mp (hsymbol r)).1
  · intro p hp hkind
    obtain ⟨r, rfl⟩ := exists_of_isRelation hp hkind
    obtain ⟨c, hc, hsorts⟩ := List.any_eq_true.mp (Bool.and_eq_true_iff.mp (hsymbol r)).2
    exact ⟨c, hc, by simpa using hsorts⟩

private theorem meaningful_rough (cs : List Char) :
    meaningful (rough cs) = sift [] (pieces cs) := by
  have hcut := (seen_pieces cs).firstCut_eq fun p hp => sound_of_mem_pieces hp
  rw [(covers_pieces cs).spells] at hcut
  rw [rough, hcut, meaningful_polish_blur fun p hp => (nonempty_known cs p hp).2]

/-- Relations need no blanks around them, unless a test for null is a lexeme only with them, or a
word at a relation has a name of its own that it gets only with them. -/
theorem lexemes_spaceOut_relation (text : String) :
    lexemes (spaceOut TokenKind.isRelation text) = lexemes text ↔
      ¬HoldsTest (fun kind => ends kind || kind.isRelation) (pieces text.toList) ∧
        ∀ p ∈ pieces text.toList, p.kind = .word ∨ p.kind = .number → name? p.chars = none := by
  have hsound : ∀ p ∈ pieces text.toList, p.Sound := fun p hp => sound_of_mem_pieces hp
  have hchain := isChain_spread (isChain_pieces text.toList)
  have hrough := meaningful_rough text.toList
  have htext : conclude (sift [] (pieces text.toList)) = meaningful (pieces text.toList) := by
    rw [← hrough, ← meaningful_conclude, conclude, ← pieces_eq_rough]
  rw [lexemes_spaceOut_iff (signs_relation _), sift_of_isChain (sound_spread hsound) hchain,
    flatMap_parts_spread]
  refine and_congr_right fun _ => ⟨?_, ?_⟩
  · intro h p hp hkind
    have hk : p.kind ∉ kindsOf stages := by
      rcases hkind with hkind | hkind <;> rw [hkind] <;> decide
    have hsettles := settles_conclude ((pieces text.toList).flatMap parts)
    rw [h, htext] at hsettles
    obtain ⟨q, hparts, hq⟩ := exists_of_flatMap_parts hsound hsettles hp hk
    exact name?_eq_none_of_settles (hsound p hp) hparts hq hk hkind
  · intro h
    rw [flatMap_parts h, hrough]

/-- A duration directly after a relation is only a word. -/
theorem duration_after_relation :
    lexemes (spaceOut TokenKind.isRelation "age>5d") ≠ lexemes "age>5d" := by
  decide +kernel

end Lexer

end PipeQuery
