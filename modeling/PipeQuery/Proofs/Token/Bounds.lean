import PipeQuery.Proofs.Group.Moved
import PipeQuery.Proofs.Token.Parting

/-!
The tokens of a field, a condition and values. Those of a value are its own wherever it stands. The
`and` after a lower bound separates the bounds if no bracket is closed in the bound; otherwise it is
a connective.
-/
namespace PipeQuery

open Piece

private theorem Piece.classify_append (kindOf? : List Char → Option TokenKind)
    (ps qs : List Piece) :
    classify kindOf? (ps ++ qs) = classify kindOf? ps ++ classify kindOf? qs :=
  List.map_append

namespace Lexer
variable {cs : List Char} {ps : List Piece}

/-- What has been classified is never a part of a `between` that can be taken for another. -/
def HoldsNoBounds (ps : List Piece) : Prop :=
  ∀ p ∈ ps, p.kind ∉ [.between, .betweenAnd, .logic .and, .pipe]

/-- After other pieces the wait for an `and` goes on, unless a bracket is closed in them. -/
theorem markBetween_of_holdsNoBounds (h : HoldsNoBounds ps) (waiting : Bool) (qs : List Piece) :
    markBetween waiting (ps ++ qs) =
      ps ++ markBetween (waiting && ps.all (·.kind ≠ .closeBracket)) qs := by
  induction ps generalizing waiting with
  | nil => simp
  | cons p ps ih =>
    obtain ⟨hp, hps⟩ := List.forall_mem_cons.mp h
    rw [List.cons_append, markBetween.eq_def]
    simp only [ih hps]
    split <;> simp_all

private theorem exists_mem_markBetween {q : Piece} (hq : q ∈ ps) (waiting : Bool) :
    ∃ p ∈ markBetween waiting ps,
      p.kind = q.kind ∨ q.kind = .logic .and ∧ p.kind = .betweenAnd := by
  induction ps generalizing waiting with
  | nil => cases hq
  | cons p ps ih =>
    obtain ⟨r, next, hkind, hstep⟩ := exists_markBetween_cons waiting p
    rw [hstep]
    rcases List.mem_cons.mp hq with rfl | hq
    · exact ⟨r, List.mem_cons_self, hkind⟩
    · obtain ⟨s, hs, hrest⟩ := ih hq next
      exact ⟨s, List.mem_cons_of_mem r hs, hrest⟩

/-- Where the last stages have found nothing of a `between`, there was nothing before them. -/
theorem holdsNoBounds_rough (h : HoldsNoBounds (pieces cs)) : HoldsNoBounds (rough cs) := by
  intro q hq hmem
  obtain ⟨p, hp, hkind⟩ := exists_mem_markBetween hq false
  have hknown : p.kind ≠ .unknown := by
    rcases hkind with hkind | ⟨-, hkind⟩
    · rintro hp
      rw [← hkind, hp] at hmem
      simp at hmem
    · simp [hkind]
  have hfinal : p ∈ pieces cs := by
    rw [pieces_eq_rough]
    exact List.mem_map.mpr ⟨p, hp, if_neg hknown⟩
  refine h p hfinal ?_
  rcases hkind with hkind | ⟨-, hkind⟩
  · rwa [hkind]
  · simp [hkind]

private theorem pieces_of_holdsNoBounds (h : HoldsNoBounds (pieces cs)) :
    pieces cs = classify (fun _ => some .word) (rough cs) := by
  have hmark := markBetween_of_holdsNoBounds (holdsNoBounds_rough h) false []
  rw [List.append_nil, markBetween, List.append_nil] at hmark
  rw [pieces_eq_rough, hmark]

private theorem all_classify_word (ps : List Piece) :
    (classify (fun _ => some .word) ps).all (·.kind ≠ .closeBracket) =
      ps.all (·.kind ≠ .closeBracket) := by
  rw [classify, List.all_map]
  refine List.all_congr rfl fun p => ?_
  by_cases hp : p.kind = .unknown
  · simp [hp]
  · simp [hp]

/-- No stage before the last finds anything in a word. -/
theorem rough_word (h : pieces cs = [⟨.word, cs⟩]) : rough cs = [⟨.unknown, cs⟩] := by
  obtain ⟨hearly, hblanks, hlate⟩ := idle_of_word h
  have hne : cs ≠ [] := (covers_pieces cs).nonempty ⟨.word, cs⟩ (by simp [h])
  have hfold (rules : List Rule) (hrules : ∀ rule ∈ rules, rule.split cs = [⟨.unknown, cs⟩]) :
      rules.foldl (fun ps rule => refine rule.split ps) [⟨.unknown, cs⟩] = [⟨.unknown, cs⟩] := by
    induction rules with
    | nil => rfl
    | cons rule rules ih =>
      obtain ⟨hrule, hrest⟩ := List.forall_mem_cons.mp hrules
      rw [List.foldl_cons, refine_unknown, hrule]
      exact ih hrest
  rw [rough, firstCut, start, if_neg (by simp [hne]), hfold early hearly, refine_unknown, hblanks]
  exact polish_of_idle hlate

section
variable {field word : List Char} {kind : TokenKind}
  (hfield : pieces field = [⟨.word, field⟩]) (hparam : ¬['$', '\x7b'] <:+: field)
include hfield hparam

/-- A field and a condition in front of values are pieces of their own. -/
theorem fused_rough_field (hword : Words.Divides word)
    (hpolish : polish [⟨.unknown, word⟩] = [⟨kind, word⟩]) (rest : List Char) :
    Fused (⟨.unknown, field⟩ :: ⟨.whitespace, [' ']⟩ :: ⟨kind, word⟩ :: ⟨.whitespace, [' ']⟩ ::
        rough rest)
      (rough (field ++ (' ' :: (word ++ [' ']) ++ rest))) := by
  have hfused := fused_rough (.quiet (quiet_of_word hfield hparam)) hword rest
  rw [rough_word hfield, hpolish] at hfused
  exact hfused

private theorem fused_pieces_comparison (hword : Words.Divides word)
    (hpolish : polish [⟨.unknown, word⟩] = [⟨kind, word⟩])
    (hkind : kind ∉ [.unknown, .between, .logic .and, .pipe, .closeBracket]) (rest : List Char) :
    Fused (⟨.word, field⟩ :: ⟨.whitespace, [' ']⟩ :: ⟨kind, word⟩ :: ⟨.whitespace, [' ']⟩ ::
        pieces rest)
      (pieces (field ++ (' ' :: (word ++ [' ']) ++ rest))) := by
  simp only [List.mem_cons, not_or] at hkind
  have hfused := ((fused_rough_field hfield hparam hword hpolish rest).markBetween
    false).classify fun _ => some .word
  have hinert : ∀ p ∈ ([⟨.unknown, field⟩, ⟨.whitespace, [' ']⟩, ⟨kind, word⟩,
      ⟨.whitespace, [' ']⟩] : List Piece),
      p.kind ∉ [.between, .logic .and, .pipe, .closeBracket] := by
    simp [hkind]
  have hmark := markBetween_append hinert false (rough rest)
  simp only [List.cons_append, List.nil_append] at hmark
  rw [hmark, ← pieces_eq_rough] at hfused
  rw [pieces_eq_rough rest]
  simpa [classify, hkind] using hfused

end

private theorem divides_between : Words.Divides "between".toList :=
  ⟨plain_of_all (by decide) (by decide), by decide, by decide⟩

private theorem divides_and : Words.Divides "and".toList :=
  ⟨plain_of_all (by decide) (by decide), by decide, by decide⟩

theorem divides_greater : Words.Divides ">".toList :=
  ⟨plain_of_all (by decide) (by decide), by decide, by decide⟩

def separatorKind (lower : List Char) : TokenKind :=
  if (pieces lower).all (·.kind ≠ .closeBracket) then .betweenAnd else .logic .and

theorem separatorKind_eq (lower : String) : separatorKind lower.toList =
    if ∀ t ∈ tokens lower, t.kind ≠ .closeBracket then .betweenAnd else .logic .and := by
  have hkinds : (tokens lower).map (·.kind) = (pieces lower.toList).map (·.kind) := by
    rw [tokens, kinds_layout]
  have hall : (pieces lower.toList).all (·.kind ≠ .closeBracket) =
      (tokens lower).all (·.kind ≠ .closeBracket) := by
    have hmap := congrArg (List.all · (· ≠ TokenKind.closeBracket)) hkinds.symm
    simp only [List.all_map] at hmap
    exact hmap
  rw [separatorKind, hall]
  simp only [List.all_eq_true, decide_eq_true_eq]

private theorem isIgnorable_separatorKind (lower : List Char) :
    (separatorKind lower).isIgnorable = false := by
  unfold separatorKind
  split <;> rfl

/-- The `and` after a lower bound is the separator that its bound allows. -/
theorem markBetween_bounds {lower : List Char} (hlower : HoldsNoBounds (pieces lower))
    (qs : List Piece) :
    classify (fun _ => some .word)
        (markBetween true (rough lower ++ ⟨.whitespace, [' ']⟩ :: ⟨.logic .and, "and".toList⟩ ::
          ⟨.whitespace, [' ']⟩ :: qs)) =
      pieces lower ++ ⟨.whitespace, [' ']⟩ :: ⟨separatorKind lower, "and".toList⟩ ::
        ⟨.whitespace, [' ']⟩ :: classify (fun _ => some .word) (markBetween false qs) := by
  have hpieces := pieces_of_holdsNoBounds hlower
  have hall := all_classify_word (rough lower)
  rw [← hpieces] at hall
  rw [markBetween_of_holdsNoBounds (holdsNoBounds_rough hlower), Bool.true_and, ← hall,
    separatorKind, classify_append, ← hpieces]
  cases (pieces lower).all (·.kind ≠ .closeBracket) with
  | true => simp [markBetween, classify]
  | false => simp [markBetween, classify]

/-- The pieces of a field between two bounds. -/
theorem fused_pieces_bounds {field lower : List Char}
    (hfield : pieces field = [⟨.word, field⟩]) (hparam : ¬['$', '\x7b'] <:+: field)
    (hclosed : Closed lower) (hlower : HoldsNoBounds (pieces lower)) (upper : List Char) :
    Fused (⟨.word, field⟩ :: ⟨.whitespace, [' ']⟩ :: ⟨.between, "between".toList⟩ ::
        ⟨.whitespace, [' ']⟩ :: (pieces lower ++ ⟨.whitespace, [' ']⟩ ::
          ⟨separatorKind lower, "and".toList⟩ :: ⟨.whitespace, [' ']⟩ :: pieces upper))
      (pieces (field ++ (' ' :: ("between".toList ++ [' ']) ++
        (lower ++ (' ' :: ("and".toList ++ [' ']) ++ upper))))) := by
  have hbetween : polish [⟨.unknown, "between".toList⟩] = [⟨.between, "between".toList⟩] := by
    decide +kernel
  have hand : polish [⟨.unknown, "and".toList⟩] = [⟨.logic .and, "and".toList⟩] := by
    decide +kernel
  have hvalues := fused_rough hclosed divides_and upper
  rw [hand] at hvalues
  have hfused := (((hvalues.cons _).cons _).cons _).cons _ |>.trans
    (fused_rough_field hfield hparam divides_between hbetween _)
  have hmarked := (hfused.markBetween false).classify fun _ => some .word
  rw [← pieces_eq_rough] at hmarked
  have hfront (qs : List Piece) : classify (fun _ => some .word)
      (markBetween false (⟨.unknown, field⟩ :: ⟨.whitespace, [' ']⟩ ::
        ⟨.between, "between".toList⟩ :: ⟨.whitespace, [' ']⟩ :: qs)) =
      ⟨.word, field⟩ :: ⟨.whitespace, [' ']⟩ :: ⟨.between, "between".toList⟩ ::
        ⟨.whitespace, [' ']⟩ :: classify (fun _ => some .word) (markBetween true qs) := by
    simp [markBetween, classify]
  rw [hfront, List.cons_append, List.nil_append, markBetween_bounds hlower, ← pieces_eq_rough]
    at hmarked
  exact hmarked

private theorem meaningful_layout_pieces (source value : String) (start : Nat) :
    Token.meaningful (layout source start (pieces value.toList)) =
      (Token.meaningful (tokens value)).map (Token.move source start) := by
  rw [← Token.meaningful_move, tokens, ← layout_move source value start 0, Nat.add_zero]

private theorem byteLength_joint (word : List Char) :
    Text.byteLength (' ' :: (word ++ [' '])) = 1 + (Text.byteLength word + 1) := by
  simp [Text.byteLength, Text.byteLength_append, show ' '.utf8Size = 1 from rfl]

/-- The meaningful tokens of a word between blanks, and of what follows it. -/
theorem meaningful_layout_joint (source : String) (start : Nat) {kind : TokenKind}
    (hkind : kind.isIgnorable = false) (word : List Char) (ps : List Piece) :
    Token.meaningful (layout source start
        (⟨.whitespace, [' ']⟩ :: ⟨kind, word⟩ :: ⟨.whitespace, [' ']⟩ :: ps)) =
      ⟨kind, source, ⟨start + 1, start + 1 + Text.byteLength word⟩⟩ ::
        Token.meaningful (layout source (start + Text.byteLength (' ' :: (word ++ [' ']))) ps) := by
  have hblank : Text.byteLength [' '] = 1 := rfl
  have hspace : TokenKind.whitespace.isIgnorable = true := rfl
  rw [byteLength_joint]
  simp [layout, Token.meaningful, hkind, hblank, hspace, Nat.add_assoc]

private theorem meaningful_layout_cons (source : String) (start : Nat) {p : Piece}
    (hp : p.kind.isIgnorable = false) (ps : List Piece) :
    Token.meaningful (layout source start (p :: ps)) =
      ⟨p.kind, source, ⟨start, start + Text.byteLength p.chars⟩⟩ ::
        Token.meaningful (layout source (start + Text.byteLength p.chars) ps) := by
  simp [layout, Token.meaningful, hp]

private theorem slice_field {text field : String} {after : List Char}
    (htext : text.toList = field.toList ++ after) (kind : TokenKind) :
    Token.slice ⟨kind, text, ⟨0, Text.byteLength field.toList⟩⟩ = field := by
  have hparts : text.toList = [] ++ field.toList ++ after := htext
  have hslice := Text.slice_between hparts
  rw [String.ofList_toList, Text.byteLength, Nat.zero_add] at hslice
  exact hslice

section
variable {text field : String} (hfield : pieces field.toList = [⟨.word, field.toList⟩])
  (hparam : ¬['$', '\x7b'] <:+: field.toList)
include hfield hparam

/-- The tokens of a comparison are the field, the relation, and the tokens of the value where it
stands. -/
theorem meaningful_comparison {value : String} {word : List Char} {kind : TokenKind}
    (hword : Words.Divides word) (hpolish : polish [⟨.unknown, word⟩] = [⟨kind, word⟩])
    (hkind : kind ∉ [.unknown, .between, .logic .and, .pipe, .closeBracket])
    (hmeans : kind.isIgnorable = false)
    (htext : text.toList = field.toList ++ (' ' :: (word ++ [' ']) ++ value.toList)) :
    ∃ f c : Token, f.kind = .word ∧ f.slice = field ∧ c.kind = kind ∧
      Token.meaningful (tokens text) = f :: c :: (Token.meaningful (tokens value)).map
        (Token.move text (Text.byteLength (field.toList ++ ' ' :: (word ++ [' '])))) := by
  have htokens := (fused_pieces_comparison hfield hparam hword hpolish hkind
    value.toList).meaningful_layout text 0
  rw [← htext, ← tokens, meaningful_layout_cons _ _ rfl, meaningful_layout_joint _ _ hmeans,
    meaningful_layout_pieces] at htokens
  simp only [Nat.zero_add, ← Text.byteLength_append] at htokens
  exact ⟨_, _, rfl, slice_field htext _, rfl, htokens.symm⟩

/-- The tokens of a `between` are the field, the condition, and the tokens of both bounds where they
stand, with the separator that the lower bound allows. -/
theorem meaningful_bounds {lower upper : String} (hclosed : Closed lower.toList)
    (hlower : HoldsNoBounds (pieces lower.toList))
    (htext : text.toList = field.toList ++ (' ' :: ("between".toList ++ [' ']) ++
      (lower.toList ++ (' ' :: ("and".toList ++ [' ']) ++ upper.toList)))) :
    ∃ f c s : Token, f.kind = .word ∧ f.slice = field ∧ c.kind = .between ∧
      s.kind = separatorKind lower.toList ∧
      Token.meaningful (tokens text) = f :: c ::
        ((Token.meaningful (tokens lower)).map
            (Token.move text
              (Text.byteLength (field.toList ++ ' ' :: ("between".toList ++ [' '])))) ++
          s :: (Token.meaningful (tokens upper)).map
            (Token.move text (Text.byteLength (field.toList ++ ' ' :: ("between".toList ++ [' ']) ++
              lower.toList ++ ' ' :: ("and".toList ++ [' ']))))) := by
  have hspell := (covers_pieces lower.toList).spells
  have htokens := (fused_pieces_bounds hfield hparam hclosed hlower
    upper.toList).meaningful_layout text 0
  rw [← htext, ← tokens, meaningful_layout_cons _ _ rfl, meaningful_layout_joint _ _ rfl,
    layout_append, hspell, Token.meaningful, List.filter_append, ← Token.meaningful,
    ← Token.meaningful, meaningful_layout_pieces,
    meaningful_layout_joint _ _ (isIgnorable_separatorKind _), meaningful_layout_pieces] at htokens
  simp only [Nat.zero_add, ← Text.byteLength_append] at htokens
  generalize separatorKind lower.toList = separator at htokens ⊢
  exact ⟨_, _, _, rfl, slice_field htext _, rfl, rfl, htokens.symm⟩

end

end Lexer

end PipeQuery
