import Mathlib.Data.List.Forall2
import PipeQuery.Proofs.Token.Word

/-!
Where pieces and tokens come from. A lexeme has been marked where it stands, between what the pieces
around it spell. The last stages keep pieces one by one, and every token is a piece with its place.
-/
namespace PipeQuery

open Piece

theorem exists_append_of_forall₂ {α β : Type} {R : α → β → Prop} {as : List α} {front back : List β}
    {b : β} (h : List.Forall₂ R as (front ++ b :: back)) : ∃ front' a back',
      as = front' ++ a :: back' ∧ List.Forall₂ R front' front ∧ R a b ∧
        List.Forall₂ R back' back := by
  have hfront := List.forall₂_take_append as front _ h
  have hrest := List.forall₂_drop_append as front _ h
  obtain ⟨a, back', hab, hback, hdrop⟩ := List.forall₂_cons_right_iff.mp hrest
  refine ⟨as.take front.length, a, back', ?_, hfront, hab, hback⟩
  rw [← hdrop, List.take_append_drop]

theorem exists_of_forall₂ {α β : Type} {R : α → β → Prop} {as : List α} {bs : List β}
    (h : List.Forall₂ R as bs) {b : β} (hb : b ∈ bs) : ∃ a ∈ as, R a b := by
  obtain ⟨front, back, rfl⟩ := List.append_of_mem hb
  obtain ⟨_, a, _, rfl, -, hab, -⟩ := exists_append_of_forall₂ h
  exact ⟨a, by simp, hab⟩

namespace Piece

/-- What stands after unclassified text stood after what the text was put in front of. -/
theorem prepend_eq_append {p : Piece} (hp : p.kind ≠ .unknown) {cs : List Char}
    {ps front back : List Piece} (h : prepend cs ps = front ++ p :: back) :
    ∃ front', ps = front' ++ p :: back ∧ spell front = cs ++ spell front' := by
  have hfirst (chars : List Char) (rest : List Piece)
      (heq : ⟨.unknown, chars⟩ :: rest = front ++ p :: back) :
      ∃ front', front = ⟨.unknown, chars⟩ :: front' ∧ rest = front' ++ p :: back := by
    cases front with
    | nil =>
      obtain ⟨rfl, -⟩ := List.cons.inj heq
      exact absurd rfl hp
    | cons q front =>
      obtain ⟨rfl, hrest⟩ := List.cons.inj heq
      exact ⟨front, rfl, hrest⟩
  cases ps with
  | nil =>
    obtain ⟨front', -, hrest⟩ := hfirst _ _ h
    simp at hrest
  | cons q ps =>
    obtain ⟨kind, chars⟩ := q
    by_cases hkind : kind = .unknown
    · subst hkind
      obtain ⟨front', rfl, rfl⟩ := hfirst _ _ h
      exact ⟨⟨.unknown, chars⟩ :: front', rfl, by simp [spell_cons]⟩
    · rw [prepend_cons hkind] at h
      obtain ⟨front', rfl, hrest⟩ := hfirst _ _ h
      exact ⟨front', hrest, rfl⟩

theorem of_mem_refine {split : List Char → List Piece} {ps : List Piece} {p : Piece}
    (hp : p ∈ refine split ps) :
    (p ∈ ps ∧ p.kind ≠ .unknown) ∨ ∃ q ∈ ps, q.kind = .unknown ∧ p ∈ split q.chars := by
  obtain ⟨q, hq, hp⟩ := List.mem_flatMap.mp hp
  split at hp
  next hkind => exact .inr ⟨q, hq, hkind, hp⟩
  next hkind =>
    cases List.mem_singleton.mp hp
    exact .inl ⟨hq, hkind⟩

private theorem mem_prepend_unknown {p : Piece} {cs : List Char} {ps : List Piece} {c : Char}
    (hp : p ∈ prepend cs ps) (hkind : p.kind = .unknown) (hc : c ∈ p.chars) :
    c ∈ cs ∨ ∃ q ∈ ps, q.kind = .unknown ∧ c ∈ q.chars := by
  revert hp
  fun_cases prepend cs ps with
  | case1 rest ps =>
    intro hp
    rcases List.mem_cons.mp hp with rfl | hp
    · rcases List.mem_append.mp hc with hc | hc
      · exact .inl hc
      · exact .inr ⟨_, List.mem_cons_self, rfl, hc⟩
    · exact .inr ⟨p, List.mem_cons_of_mem _ hp, hkind, hc⟩
  | case2 =>
    intro hp
    rcases List.mem_cons.mp hp with rfl | hp
    · exact .inl hc
    · exact .inr ⟨p, hp, hkind, hc⟩

end Piece

namespace Rule
variable {rule : Rule}

/-- A lexeme was marked where it stands, between what the pieces around it spell. -/
theorem mark_of_scan {skip : Nat} {before cs : List Char} {front back : List Piece} {p : Piece}
    (h : rule.scan skip before cs = front ++ p :: back) (hp : p.kind ≠ .unknown) :
    ∃ more, rule ((spell front).reverse ++ ((cs.take skip).reverse ++ before))
        (p.chars ++ spell back) = .mark p.kind more ∧
      p.chars = (p.chars ++ spell back).take (more + 1) := by
  fun_induction scan rule skip before cs generalizing front with
  | case1 => simp at h
  | case2 before skip c cs ih => simpa using ih h
  | case3 before c cs more hrule ih =>
    obtain ⟨front', hscan, hspell⟩ := prepend_eq_append hp h
    simpa [hspell] using ih hscan
  | case4 before c cs kind more hrule ih =>
    cases front with
    | nil =>
      obtain ⟨rfl, rfl⟩ := List.cons.inj h
      have hrest := (rule.covers_scan more (c :: before) cs).spells
      have hchars : c :: cs.take more ++ spell (rule.scan more (c :: before) cs) = c :: cs := by
        rw [hrest, List.cons_append, List.take_append_drop]
      refine ⟨more, (congrArg (rule before) hchars).trans hrule, ?_⟩
      exact (congrArg (List.take (more + 1)) hchars).symm
    | cons q front =>
      obtain ⟨rfl, hscan⟩ := List.cons.inj h
      simpa [spell_cons] using ih hscan

theorem subset_of_mem_split {cs : List Char} {p : Piece} (h : p ∈ rule.split cs) :
    p.chars ⊆ cs := by
  intro c hc
  rw [← (rule.covers_split cs).spells]
  exact List.mem_flatMap.mpr ⟨p, h, hc⟩

/-- Such a rule has looked at every character that it has left. -/
theorem Steps.leave_of_mem (h : rule.Steps) {skip : Nat} {before cs : List Char} {p : Piece}
    (hp : p ∈ rule.scan skip before cs) (hkind : p.kind = .unknown) {c : Char} (hc : c ∈ p.chars) :
    ∃ before back, rule before (c :: back) = .leave 0 := by
  fun_induction scan rule skip before cs generalizing p with
  | case1 => cases hp
  | case2 before skip d cs ih => exact ih hp hkind hc
  | case3 before d cs more hrule ih =>
    obtain rfl : more = 0 := by
      rcases h before (d :: cs) with hleave | ⟨kind, more', hmark, -⟩
      · rw [hrule] at hleave
        cases hleave
        rfl
      · rw [hrule] at hmark
        cases hmark
    rcases mem_prepend_unknown hp hkind hc with hc | ⟨q, hq, hkind, hc⟩
    · cases List.mem_singleton.mp hc
      exact ⟨before, cs, hrule⟩
    · exact ih hq hkind hc
  | case4 before d cs kind more hrule ih =>
    rcases List.mem_cons.mp hp with rfl | hp
    · rcases h before (d :: cs) with hleave | ⟨kind', more', hmark, hne⟩
      · rw [hrule] at hleave
        cases hleave
      · rw [hrule] at hmark
        cases hmark
        exact absurd hkind hne
    · exact ih hp hkind hc

end Rule

namespace Lexer

def Separates (p q : Piece) : Prop := q = p ∨ p.kind = .logic .and ∧ q = ⟨.betweenAnd, p.chars⟩

theorem separates_markBetween (waiting : Bool) (ps : List Piece) :
    List.Forall₂ Separates ps (markBetween waiting ps) := by
  fun_induction markBetween waiting ps with
  | case1 => exact .nil
  | case3 p ps hand ih => exact .cons (.inr ⟨hand, rfl⟩) ih
  | case2 _ p ps _ ih | case4 _ p ps _ _ ih | case5 _ p ps _ ih | case6 _ p ps _ ih
  | case7 _ p ps _ _ _ _ ih => exact .cons (.inl rfl) ih

def Places (p : Piece) (t : Token) : Prop := t.kind = p.kind ∧ t.slice = String.ofList p.chars

private theorem places_layout {source : String} {front : List Char} {ps : List Piece}
    (h : source.toList = front ++ spell ps) :
    List.Forall₂ Places ps (layout source (Text.byteLength front) ps) := by
  induction ps generalizing front with
  | nil => exact .nil
  | cons p ps ih =>
    have hs : source.toList = (front ++ p.chars) ++ spell ps := by
      rw [h, spell_cons, List.append_assoc]
    have hrest := ih hs
    rw [Text.byteLength_append] at hrest
    exact .cons ⟨rfl, Text.slice_between hs⟩ hrest

theorem places_tokens (text : String) :
    List.Forall₂ Places (pieces text.toList) (tokens text) := by
  have hspells : text.toList = [] ++ spell (pieces text.toList) := by
    rw [List.nil_append, (covers_pieces text.toList).spells]
  rw [tokens]
  generalize pieces text.toList = ps at hspells ⊢
  exact places_layout hspells

end Lexer

end PipeQuery
