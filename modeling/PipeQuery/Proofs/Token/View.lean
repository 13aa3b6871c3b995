import PipeQuery.Proofs.Token.Context
import PipeQuery.Proofs.Token.Parting

/-!
What a stage of the lexer sees of lexemes. A stage looks at the text between two lexemes of kinds
that are known before it, and there it marks the lexemes of its own kinds and leaves every character
of the others. Where it does, and only there, it takes one view of the lexemes to the next.
-/
namespace PipeQuery

open Piece

namespace Piece
variable {known kinds : List TokenKind} {p : Piece} {ps qs : List Piece} {before : List Char}

/-- The text after a place, up to the next lexeme of a known kind. -/
def ahead (known : List TokenKind) : List Piece → List Char
  | [] => []
  | p :: ps => if p.kind ∈ known then [] else p.chars ++ ahead known ps

/-- What stands before the end of the lexemes, back to the last one of a known kind, with the
nearest character first. -/
def behind (known : List TokenKind) (before : List Char) (ps : List Piece) : List Char :=
  ps.foldl (fun before p => if p.kind ∈ known then [] else p.chars.reverse ++ before) before

def beyond (known : List TokenKind) (ps : List Piece) : List Piece := ps.dropWhile (·.kind ∉ known)

theorem ahead_cons_known (hp : p.kind ∈ known) : ahead known (p :: ps) = [] := if_pos hp

theorem ahead_cons (hp : p.kind ∉ known) : ahead known (p :: ps) = p.chars ++ ahead known ps :=
  if_neg hp

private theorem beyond_cons_known (hp : p.kind ∈ known) : beyond known (p :: ps) = p :: ps :=
  List.dropWhile_cons_of_neg (by simpa using hp)

private theorem beyond_cons (hp : p.kind ∉ known) : beyond known (p :: ps) = beyond known ps :=
  List.dropWhile_cons_of_pos (by simpa using hp)

theorem behind_cons_known (hp : p.kind ∈ known) :
    behind known before (p :: ps) = behind known [] ps := by
  simp [behind, hp]

theorem behind_cons (hp : p.kind ∉ known) :
    behind known before (p :: ps) = behind known (p.chars.reverse ++ before) ps := by
  simp [behind, hp]

theorem behind_concat (ps : List Piece) (p : Piece) : behind known before (ps ++ [p]) =
    if p.kind ∈ known then [] else p.chars.reverse ++ behind known before ps := by
  simp [behind]

theorem blur_cons_known (hp : p.kind ∈ known) : blur known (p :: ps) = p :: blur known ps :=
  if_pos hp

theorem blur_cons (hp : p.kind ∉ known) : blur known (p :: ps) = prepend p.chars (blur known ps) :=
  if_neg hp

/-- Unclassified text goes up to the next lexeme of a known kind. -/
theorem blur_cons_unknown (hps : ∀ q ∈ ps, q.kind ≠ .unknown) (hp : p.kind ∉ known) :
    blur known (p :: ps) =
      ⟨.unknown, p.chars ++ ahead known ps⟩ :: blur known (beyond known ps) := by
  induction ps generalizing p with
  | nil => simp [blur, hp, ahead, beyond, prepend]
  | cons q ps ih =>
    obtain ⟨hunknown, hrest⟩ := List.forall_mem_cons.mp hps
    rw [blur_cons hp]
    by_cases hq : q.kind ∈ known
    · rw [blur_cons_known hq, prepend_cons hunknown, ahead_cons_known hq, beyond_cons_known hq,
        blur_cons_known hq, List.append_nil]
    · rw [ih hrest hq, prepend, ahead_cons hq, beyond_cons hq]

/-- Only the first piece tells what unclassified text has been put in front of. -/
theorem prepend_inj {cs : List Char} (hps : ∀ p ∈ ps, p.chars ≠ []) (hqs : ∀ p ∈ qs, p.chars ≠ [])
    (h : prepend cs ps = prepend cs qs) : ps = qs := by
  have hcases (rs : List Piece) (hrs : ∀ p ∈ rs, p.chars ≠ []) :
      (∃ more rest, rs = ⟨.unknown, more⟩ :: rest ∧ more ≠ [] ∧
        prepend cs rs = ⟨.unknown, cs ++ more⟩ :: rest) ∨
      prepend cs rs = ⟨.unknown, cs⟩ :: rs := by
    cases rs with
    | nil => exact .inr rfl
    | cons p rs =>
      obtain ⟨kind, more⟩ := p
      by_cases hkind : kind = .unknown
      · subst hkind
        exact .inl ⟨more, rs, rfl, hrs _ List.mem_cons_self, rfl⟩
      · exact .inr (prepend_cons hkind cs rs)
  rcases hcases ps hps with ⟨more, rest, rfl, hmore, hp⟩ | hp <;>
    rcases hcases qs hqs with ⟨more', rest', rfl, hmore', hq⟩ | hq <;>
    · rw [hp, hq] at h
      simp_all

theorem nonempty_blur (hps : ∀ p ∈ ps, p.chars ≠ []) : ∀ p ∈ blur known ps, p.chars ≠ [] := by
  induction ps with
  | nil => simp [blur]
  | cons q ps ih =>
    obtain ⟨hq, hrest⟩ := List.forall_mem_cons.mp hps
    by_cases hk : q.kind ∈ known
    · rw [blur_cons_known hk]
      exact List.forall_mem_cons.mpr ⟨hq, ih hrest⟩
    · rw [blur_cons hk]
      exact nonempty_of_mem_prepend hq (ih hrest)

end Piece

namespace Rule
variable {rule : Rule} {known kinds : List TokenKind} {p : Piece} {ps qs : List Piece}
  {before after : List Char}

/-- Where the piece stands between two texts, the rule marks it if it is of one of the kinds, and
leaves every character of it if it is not. -/
def Judges (rule : Rule) (kinds : List TokenKind) (before : List Char) (p : Piece)
    (after : List Char) : Prop :=
  if p.kind ∈ kinds then rule before (p.chars ++ after) = .mark p.kind (p.chars.length - 1)
  else ∀ f c b, p.chars = f ++ c :: b → rule (f.reverse ++ before) (c :: (b ++ after)) = .leave 0

/-- The rule judges every lexeme whose kind is not known, in the text between those whose kinds
are. -/
def Sees (rule : Rule) (known kinds : List TokenKind) (before : List Char) (ps : List Piece) :
    Prop :=
  ∀ front p back, ps = front ++ p :: back → p.kind ∉ known →
    rule.Judges kinds (behind known before front) p (ahead known back)

private theorem sees_cons_known (hp : p.kind ∈ known) :
    rule.Sees known kinds before (p :: ps) ↔ rule.Sees known kinds [] ps := by
  constructor
  · rintro h front q back rfl hq
    rw [← behind_cons_known hp]
    exact h (p :: front) q back rfl hq
  · intro h front q back heq hq
    cases front with
    | nil =>
      obtain ⟨rfl, -⟩ := List.cons.inj heq
      exact absurd hp hq
    | cons r front =>
      obtain ⟨rfl, htail⟩ := List.cons.inj heq
      rw [behind_cons_known hp]
      exact h front q back htail hq

theorem sees_cons (hp : p.kind ∉ known) :
    rule.Sees known kinds before (p :: ps) ↔
      rule.Judges kinds before p (ahead known ps) ∧
        rule.Sees known kinds (p.chars.reverse ++ before) ps := by
  constructor
  · intro h
    refine ⟨h [] p ps rfl hp, ?_⟩
    rintro front q back rfl hq
    rw [← behind_cons hp]
    exact h (p :: front) q back rfl hq
  · rintro ⟨hfirst, hrest⟩ front q back heq hq
    cases front with
    | nil =>
      obtain ⟨rfl, rfl⟩ := List.cons.inj heq
      exact hfirst
    | cons r front =>
      obtain ⟨rfl, htail⟩ := List.cons.inj heq
      rw [behind_cons hp]
      exact hrest front q back htail hq

def putFront (kinds : List TokenKind) (p : Piece) (ps : List Piece) : List Piece :=
  if p.kind ∈ kinds then p :: ps else prepend p.chars ps

theorem scan_of_leave (hne : p.chars ≠ []) (h : ∀ f c b, p.chars = f ++ c :: b →
      rule (f.reverse ++ before) (c :: (b ++ after)) = .leave 0) :
    rule.scan 0 before (p.chars ++ after) =
      prepend p.chars (rule.scan 0 (p.chars.reverse ++ before) after) := by
  obtain ⟨kind, chars⟩ := p
  simp only at hne h ⊢
  induction chars generalizing before with
  | nil => exact absurd rfl hne
  | cons c cs ih =>
    have hc := h [] c cs rfl
    rw [List.reverse_nil, List.nil_append] at hc
    rw [List.cons_append, scan, hc]
    simp only [List.take_zero]
    cases cs with
    | nil => rfl
    | cons d cs =>
      rw [ih (by simp) ?_, prepend_prepend]
      · simp
      · intro f e b heq
        have he := h (c :: f) e b (by rw [heq, List.cons_append])
        simpa using he

/-- What a rule finds that judges the lexeme at the start of a text. -/
theorem Judges.scan_eq (hne : p.chars ≠ []) (h : rule.Judges kinds before p after) :
    rule.scan 0 before (p.chars ++ after) =
      putFront kinds p (rule.scan 0 (p.chars.reverse ++ before) after) := by
  unfold Judges at h
  unfold putFront
  split at h
  next hp =>
    rw [if_pos hp]
    obtain ⟨kind, chars⟩ := p
    obtain ⟨c, cs, rfl⟩ := List.exists_cons_of_ne_nil hne
    simp only [List.cons_append, List.length_cons, Nat.add_sub_cancel] at h ⊢
    rw [scan, h]
    simp only [List.take_left', scan_skip, List.reverse_cons, List.append_assoc,
      List.singleton_append]
  next hp =>
    rw [if_neg hp]
    exact scan_of_leave hne h

/-- A rule that goes on from one character to the next has left all that stands in an unclassified
piece at the start. -/
theorem Steps.leave_of_scan (hsteps : rule.Steps) {cs u : List Char} {rest : List Piece}
    (h : rule.scan 0 before cs = ⟨.unknown, u⟩ :: rest) (f : List Char) (c : Char) (b : List Char)
    (hu : u = f ++ c :: b) : rule (f.reverse ++ before) (c :: (b ++ spell rest)) = .leave 0 := by
  induction cs generalizing before u f with
  | nil => cases h
  | cons d cs ih =>
    have hspell := (rule.covers_scan 0 before (d :: cs)).spells
    rw [h, spell_cons, List.drop_zero] at hspell
    rw [scan] at h
    rcases hsteps before (d :: cs) with hleave | ⟨kind, more, hmark, hkind⟩
    · rw [hleave] at h
      simp only [List.take_zero] at h
      cases f with
      | nil =>
        subst hu
        rw [List.nil_append] at hspell
        rw [List.reverse_nil, List.nil_append, ← List.cons_append, hspell, hleave]
      | cons e f =>
        subst hu
        -- The piece goes on with what the rule makes of the rest of the text.
        have hrest : rule.scan 0 (d :: before) cs = ⟨.unknown, f ++ c :: b⟩ :: rest := by
          cases hscan : rule.scan 0 (d :: before) cs with
          | nil =>
            rw [hscan] at h
            simp [prepend] at h
          | cons q qs =>
            obtain ⟨kind, chars⟩ := q
            rw [hscan] at h
            by_cases hkind : kind = .unknown
            · subst hkind
              rw [prepend] at h
              simp_all
            · rw [prepend_cons hkind] at h
              simp at h
        have hd : d = e := by
          simp at hspell
          exact hspell.1.symm
        have hstep := ih hrest f rfl
        rw [hd] at hstep
        simpa using hstep
    · rw [hmark] at h
      obtain ⟨heq, -⟩ := List.cons.inj h
      exact absurd (Piece.mk.inj heq).1 hkind

/-- What a rule has found at the start of a text, it has judged so. -/
theorem judges_of_scan (hsteps : rule.Steps) (hfits : rule.Fits) (hne : p.chars ≠ [])
    (hunknown : p.kind ≠ .unknown) (tail : List Piece)
    (h : rule.scan 0 before (p.chars ++ after) ++ tail = putFront kinds p qs) :
    rule.Judges kinds before p after := by
  have hcovers := (rule.covers_scan 0 before (p.chars ++ after)).spells
  rw [List.drop_zero] at hcovers
  cases hscan : rule.scan 0 before (p.chars ++ after) with
  | nil =>
    rw [hscan] at hcovers
    simp [spell, hne] at hcovers
  | cons q rest =>
    rw [hscan, List.cons_append] at h
    rw [hscan, spell_cons] at hcovers
    unfold putFront at h
    unfold Judges
    split at h
    next hp =>
      obtain ⟨rfl, -⟩ := List.cons.inj h
      obtain ⟨more, hmark, htake⟩ := @mark_of_scan rule 0 before _ [] rest q hscan hunknown
      have hafter := List.append_cancel_left hcovers
      rw [hafter] at hmark htake
      simp only [spell, List.flatMap_nil, List.reverse_nil, List.take_zero,
        List.nil_append] at hmark
      rw [if_pos hp, hmark]
      clear hscan h
      obtain ⟨c, cs, hchars⟩ := List.exists_cons_of_ne_nil hne
      rw [hchars, List.cons_append] at hmark
      have hle := (hfits.mark hmark).2
      have hlength := congrArg List.length htake
      simp only [hchars, List.length_take, List.length_append, List.length_cons] at hle hlength ⊢
      congr 1
      omega
    next hp =>
      rw [if_neg hp]
      obtain ⟨more, others, hstart⟩ := exists_prepend p.chars qs
      rw [hstart] at h
      obtain ⟨rfl, -⟩ := List.cons.inj h
      rw [List.append_assoc] at hcovers
      have hafter := List.append_cancel_left hcovers
      intro f c b hchars
      have hleave := hsteps.leave_of_scan hscan f c (b ++ more) (by rw [hchars]; simp)
      rwa [List.append_assoc, hafter] at hleave

private theorem putFront_append {tail : List Piece}
    (htail : ∀ q, tail.head? = some q → q.kind ≠ .unknown) :
    putFront kinds p (ps ++ tail) = putFront kinds p ps ++ tail := by
  unfold putFront
  split
  · rfl
  · cases tail with
    | nil => simp
    | cons q tail => exact prepend_append_of_kind (htail q rfl) _

private theorem putFront_inj (hps : ∀ q ∈ ps, q.chars ≠ []) (hqs : ∀ q ∈ qs, q.chars ≠ [])
    (h : putFront kinds p ps = putFront kinds p qs) : ps = qs := by
  unfold putFront at h
  split at h
  · exact (List.cons.inj h).2
  · exact prepend_inj hps hqs h

/-- What a stage makes of the lexemes from the next known one on starts with this one. -/
theorem head_refine_beyond (hps : ∀ p ∈ ps, p.kind ≠ .unknown) (q : Piece)
    (hq : (refine rule.split (blur known (beyond known ps))).head? = some q) :
    q.kind ≠ .unknown := by
  induction ps with
  | nil => cases hq
  | cons p ps ih =>
    obtain ⟨hp, hrest⟩ := List.forall_mem_cons.mp hps
    by_cases hk : p.kind ∈ known
    · rw [beyond_cons_known hk, blur_cons_known hk, refine_known hp] at hq
      cases hq
      exact hp
    · rw [beyond_cons hk] at hq
      exact ih hrest hq

private theorem refine_blur_eq (hps : ∀ p ∈ ps, p.kind ≠ .unknown) :
    refine rule.split (blur known ps) =
      rule.scan 0 [] (ahead known ps) ++ refine rule.split (blur known (beyond known ps)) := by
  cases ps with
  | nil => rfl
  | cons p ps =>
    obtain ⟨-, hrest⟩ := List.forall_mem_cons.mp hps
    by_cases hp : p.kind ∈ known
    · rw [ahead_cons_known hp, beyond_cons_known hp]
      rfl
    · rw [blur_cons_unknown hrest hp, refine_unknown, ahead_cons hp, beyond_cons hp, split]

theorem nonempty_refine (hps : ∀ p ∈ ps, p.chars ≠ []) :
    ∀ p ∈ refine rule.split ps, p.chars ≠ [] := by
  have hcovers : Covers (spell ps) ps := ⟨rfl, hps⟩
  exact (hcovers.refine rule.covers_split).nonempty

/-- The scan of the text up to the next known lexeme goes on from one lexeme to the next. -/
theorem scan_ahead_iff (hsteps : rule.Steps) (hfits : rule.Fits)
    (hps : ∀ p ∈ ps, p.chars ≠ [] ∧ p.kind ≠ .unknown) (before : List Char) :
    rule.scan 0 before (ahead known ps) ++ refine rule.split (blur known (beyond known ps)) =
      blur (known ++ kinds) ps ↔ rule.Sees known kinds before ps := by
  induction ps generalizing before with
  | nil => simp [ahead, beyond, blur, scan, refine, Sees]
  | cons p ps ih =>
    obtain ⟨⟨hne, hunknown⟩, hrest⟩ := List.forall_mem_cons.mp hps
    have hkinds : ∀ q ∈ ps, q.kind ≠ .unknown := fun q hq => (hrest q hq).2
    by_cases hp : p.kind ∈ known
    · rw [sees_cons_known hp, ← ih hrest, ahead_cons_known hp, beyond_cons_known hp,
        blur_cons_known hp, blur_cons_known (List.mem_append_left _ hp), refine_known hunknown,
        refine_blur_eq hkinds, scan, List.nil_append, List.cons_inj_right]
    · have hblur : blur (known ++ kinds) (p :: ps) =
          putFront kinds p (blur (known ++ kinds) ps) := by
        simp [blur, putFront, hp]
      rw [sees_cons hp, ← ih hrest, ahead_cons hp, beyond_cons hp, hblur]
      constructor
      · intro h
        have hjudges := judges_of_scan hsteps hfits hne hunknown _ h
        refine ⟨hjudges, ?_⟩
        rw [hjudges.scan_eq hne, ← putFront_append (head_refine_beyond hkinds)] at h
        refine putFront_inj ?_ (nonempty_blur fun q hq => (hrest q hq).1) h
        refine List.forall_mem_append.mpr ⟨(rule.covers_scan _ _ _).nonempty, nonempty_refine ?_⟩
        refine nonempty_blur fun q hq => (hrest q ?_).1
        exact (List.dropWhile_suffix _).subset hq
      · rintro ⟨hjudges, h⟩
        rw [hjudges.scan_eq hne, ← putFront_append (head_refine_beyond hkinds), h]

/-- A stage takes one view of the lexemes to the next if and only if its rule sees them so. -/
theorem refine_blur_iff (hsteps : rule.Steps) (hfits : rule.Fits)
    (hps : ∀ p ∈ ps, p.chars ≠ [] ∧ p.kind ≠ .unknown) :
    refine rule.split (blur known ps) = blur (known ++ kinds) ps ↔
      rule.Sees known kinds [] ps := by
  rw [← scan_ahead_iff hsteps hfits hps, refine_blur_eq fun p hp => (hps p hp).2]

end Rule

end PipeQuery
