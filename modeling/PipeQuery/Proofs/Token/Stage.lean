import PipeQuery.Proofs.Token.Partition

/-!
How a stage of the lexer works on text whose lexemes are given. `Piece.blur` shows lexemes as the
stages so far have left them; a stage takes one such view to the next if its rule marks the lexemes
of its kinds where they stand and passes over all others.
-/
namespace PipeQuery

namespace Piece

/-- The lexemes when only some kinds have been found: those of other kinds are unclassified, in one
piece with their neighbours. -/
def blur (known : List TokenKind) : List Piece → List Piece
  | [] => []
  | p :: ps => if p.kind ∈ known then p :: blur known ps else prepend p.chars (blur known ps)

section
variable {known known' : List TokenKind} {p : Piece} {ps qs : List Piece}

theorem prepend_append_of_kind (hp : p.kind ≠ .unknown) (cs : List Char) :
    prepend cs (ps ++ p :: qs) = prepend cs ps ++ p :: qs := by
  cases ps with
  | nil =>
    obtain ⟨kind, chars⟩ := p
    cases kind with
    | unknown => exact absurd rfl hp
    | _ => rfl
  | cons q ps =>
    obtain ⟨kind, chars⟩ := q
    cases kind <;> rfl

theorem prepend_prepend (cs ds : List Char) (ps : List Piece) :
    prepend cs (prepend ds ps) = prepend (cs ++ ds) ps := by
  cases ps with
  | nil => rfl
  | cons p ps =>
    obtain ⟨kind, chars⟩ := p
    cases kind with
    | unknown => simp [prepend]
    | _ => rfl

theorem blur_append_of_mem (hp : p.kind ∈ known) (hu : p.kind ≠ .unknown) :
    blur known (ps ++ p :: qs) = blur known ps ++ p :: blur known qs := by
  induction ps with
  | nil => simp [blur, hp]
  | cons q ps ih =>
    simp only [List.cons_append, blur, ih]
    split
    · rfl
    · exact prepend_append_of_kind hu q.chars

/-- Lexemes of which no kind is known are one piece. -/
theorem blur_run (hne : ps ≠ []) (h : ∀ p ∈ ps, p.kind ∉ known) :
    blur known ps = [⟨.unknown, spell ps⟩] := by
  induction ps with
  | nil => exact absurd rfl hne
  | cons p ps ih =>
    obtain ⟨hp, hps⟩ := List.forall_mem_cons.mp h
    rw [blur, if_neg hp]
    cases ps with
    | nil => simp [blur, prepend, spell]
    | cons q ps => rw [ih (by simp) hps, prepend, spell_cons p]

theorem refine_append (split : List Char → List Piece) (ps qs : List Piece) :
    refine split (ps ++ qs) = refine split ps ++ refine split qs :=
  List.flatMap_append

/-- A part of the lexemes of which no kind is known, up to the next whose kind is. -/
structure IsRun (known : List TokenKind) (ps run back : List Piece) : Prop where
  part : ∃ front, ps = front ++ run ++ back
  unknown : ∀ p ∈ run, p.kind ∉ known
  maximal : ∀ q, back.head? = some q → q.kind ∈ known

/-- A split that finds the right kinds in every run finds them in all lexemes. -/
theorem refine_blur {split : List Char → List Piece} (hsub : known ⊆ known')
    (hps : ∀ p ∈ ps, p.kind ≠ .unknown)
    (h : ∀ run back, run ≠ [] → IsRun known ps run back → split (spell run) = blur known' run) :
    refine split (blur known ps) = blur known' ps := by
  -- The run before the rest of the lexemes grows until a known lexeme or the end comes.
  have hrun (run back : List Piece) (hr : IsRun known ps run back) :
      refine split (blur known run) = blur known' run := by
    cases run with
    | nil => rfl
    | cons p run =>
      rw [blur_run (by simp) hr.unknown, refine]
      simpa using h _ back (by simp) hr
  have hrest (tail : List Piece) : ∀ front run, ps = front ++ run ++ tail →
      (∀ p ∈ run, p.kind ∉ known) →
      refine split (blur known (run ++ tail)) = blur known' (run ++ tail) := by
    induction tail with
    | nil =>
      intro front run hpart hunknown
      rw [List.append_nil]
      exact hrun run [] ⟨⟨front, hpart⟩, hunknown, nofun⟩
    | cons q tail ih =>
      intro front run hpart hunknown
      by_cases hq : q.kind ∈ known
      · have hu : q.kind ≠ .unknown := hps q (by simp [hpart])
        have hr : IsRun known ps run (q :: tail) := by
          refine ⟨⟨front, hpart⟩, hunknown, ?_⟩
          rintro _ ⟨⟩
          exact hq
        have htail := ih (front ++ run ++ [q]) [] (by simp [hpart]) (by simp)
        have hone (qs : List Piece) : refine split (q :: qs) = q :: refine split qs := by
          simp [refine, hu]
        rw [blur_append_of_mem hq hu, blur_append_of_mem (hsub hq) hu, refine_append, hrun run _ hr,
          hone]
        exact congrArg (_ ++ q :: ·) htail
      · rw [List.append_cons]
        refine ih front (run ++ [q]) (by simp [hpart]) ?_
        intro p hp
        rcases List.mem_append.mp hp with hp | hp
        · exact hunknown p hp
        · cases List.mem_singleton.mp hp
          exact hq
  exact hrest ps [] [] rfl (by simp)

def hide (known : List TokenKind) (p : Piece) : Piece :=
  if p.kind ∈ known then p else ⟨.unknown, p.chars⟩

theorem refine_hide {split : List Char → List Piece} (hsub : known ⊆ known')
    (hps : ∀ p ∈ ps, p.kind ≠ .unknown)
    (h : ∀ p ∈ ps, p.kind ∉ known → split p.chars = [hide known' p]) :
    refine split (ps.map (hide known)) = ps.map (hide known') := by
  induction ps with
  | nil => rfl
  | cons p ps ih =>
    obtain ⟨hp, hps⟩ := List.forall_mem_cons.mp hps
    obtain ⟨hsplit, hrest⟩ := List.forall_mem_cons.mp h
    have hone : refine split [hide known p] = [hide known' p] := by
      by_cases hk : p.kind ∈ known
      · simp [refine, hide, hk, hsub hk, hp]
      · simp [refine, hide, hk, hsplit hk]
    rw [List.map_cons, ← List.singleton_append, refine_append, hone, ih hps hrest]
    rfl

theorem classify_hide {kindOf? : List Char → Option TokenKind} (hsub : known ⊆ known')
    (hps : ∀ p ∈ ps, p.kind ≠ .unknown)
    (h : ∀ p ∈ ps, p.kind ∉ known →
      kindOf? p.chars = if p.kind ∈ known' then some p.kind else none) :
    classify kindOf? (ps.map (hide known)) = ps.map (hide known') := by
  rw [classify, List.map_map]
  refine List.map_congr_left fun p hp => ?_
  by_cases hk : p.kind ∈ known
  · simp [hide, hk, hsub hk, hps p hp]
  · by_cases hk' : p.kind ∈ known'
    · simp [hide, hk, hk', h p hp hk]
    · simp [hide, hk, hk', h p hp hk]

end

end Piece

open Piece

namespace Rule
variable {rule : Rule}

theorem scan_skip (rule : Rule) (front before rest : List Char) :
    rule.scan front.length before (front ++ rest) = rule.scan 0 (front.reverse ++ before) rest := by
  induction front generalizing before with
  | nil => rfl
  | cons c front ih =>
    rw [List.length_cons, List.cons_append, scan, ih]
    simp

def Marks (rule : Rule) (p : Piece) (rest : List Char) : Prop :=
  p.chars ≠ [] ∧ ∀ before, rule before (p.chars ++ rest) = .mark p.kind (p.chars.length - 1)

/-- The rule leaves the characters unclassified where they stand before the rest. -/
def Passes (rule : Rule) (cs rest : List Char) : Prop :=
  ∀ before, rule.scan 0 before (cs ++ rest) =
    prepend cs (rule.scan 0 (cs.reverse ++ before) rest)

theorem Marks.scan_eq {p : Piece} {rest : List Char} (h : rule.Marks p rest) (before : List Char) :
    rule.scan 0 before (p.chars ++ rest) = p :: rule.scan 0 (p.chars.reverse ++ before) rest := by
  obtain ⟨kind, chars⟩ := p
  obtain ⟨hne, hmark⟩ := h
  cases chars with
  | nil => exact absurd rfl hne
  | cons c cs =>
    have hm := hmark before
    simp only [List.cons_append, List.length_cons, Nat.add_sub_cancel] at hm ⊢
    rw [scan, hm]
    simp only [List.take_left', scan_skip, List.reverse_cons, List.append_assoc,
      List.singleton_append]

/-- A block that the rule leaves at once. -/
theorem passes_of_leave {c : Char} {cs rest : List Char}
    (h : ∀ before, rule before (c :: cs ++ rest) = .leave cs.length) :
    rule.Passes (c :: cs) rest := by
  intro before
  have hl := h before
  rw [List.cons_append] at hl ⊢
  rw [scan, hl]
  simp only [List.take_left', scan_skip, List.reverse_cons, List.append_assoc,
    List.singleton_append]

theorem Passes.append {cs ds rest : List Char} (hc : rule.Passes cs (ds ++ rest))
    (hd : rule.Passes ds rest) : rule.Passes (cs ++ ds) rest := by
  intro before
  rw [List.append_assoc, hc, hd, prepend_prepend, List.reverse_append, List.append_assoc]

/-- A rule that leaves every single character leaves all of them. -/
theorem passes_of_leave_all {cs rest : List Char} (hne : cs ≠ [])
    (h : ∀ front c back, cs = front ++ c :: back →
      ∀ before, rule before (c :: back ++ rest) = .leave 0) : rule.Passes cs rest := by
  induction cs with
  | nil => exact absurd rfl hne
  | cons c cs ih =>
    have hc : rule.Passes [c] (cs ++ rest) := passes_of_leave (h [] c cs rfl)
    cases cs with
    | nil => exact hc
    | cons d cs =>
      refine hc.append (ih (by simp) ?_)
      intro front e back heq
      exact h (c :: front) e back (by rw [heq, List.cons_append])

theorem passes_of_forall {cs rest : List Char} (hne : cs ≠ [])
    (h : ∀ c ∈ cs, ∀ before back, rule before (c :: back) = .leave 0) : rule.Passes cs rest := by
  refine passes_of_leave_all hne ?_
  rintro front c back rfl before
  exact h c (by simp) before (back ++ rest)

/-- A rule that leaves every character of a text finds nothing in it. What stands before a character
is part of the text. -/
theorem split_of_leave_all {cs : List Char} (hne : cs ≠ [])
    (h : ∀ front c back, cs = front ++ c :: back → rule front.reverse (c :: back) = .leave 0) :
    rule.split cs = [⟨.unknown, cs⟩] := by
  have hscan (back : List Char) : ∀ front, cs = front ++ back → back ≠ [] →
      rule.scan 0 front.reverse back = [⟨.unknown, back⟩] := by
    induction back with
    | nil =>
      intro front heq hback
      exact absurd rfl hback
    | cons c back ih =>
      intro front heq hback
      rw [scan, h front c back heq]
      cases back with
      | nil => rfl
      | cons d back =>
        have hrest := ih (front ++ [c]) (by simp [heq]) (by simp)
        rw [List.reverse_append] at hrest
        simp only [List.take_zero]
        rw [show c :: front.reverse = [c].reverse ++ front.reverse from rfl, hrest]
        rfl
  exact hscan cs [] rfl hne

/-- A rule that marks the lexemes of the known kinds and passes over all others. -/
theorem scan_lexemes {known : List TokenKind} {run : List Piece}
    (h : ∀ front p rest, run = front ++ p :: rest →
      if p.kind ∈ known then rule.Marks p (spell rest) else rule.Passes p.chars (spell rest))
    (before : List Char) : rule.scan 0 before (spell run) = blur known run := by
  induction run generalizing before with
  | nil => rfl
  | cons p run ih =>
    have hp := h [] p run rfl
    have hrun := ih fun front q rest heq => h (p :: front) q rest (by rw [heq, List.cons_append])
    rw [spell_cons, blur]
    split at hp
    next hk => rw [if_pos hk, hp.scan_eq, hrun]
    next hk => rw [if_neg hk, hp, hrun]

/-- A stage whose rule does so in every run takes one view of the lexemes to the next. -/
theorem refine_split {known known' : List TokenKind} {ps : List Piece} (hsub : known ⊆ known')
    (hps : ∀ p ∈ ps, p.kind ≠ .unknown)
    (h : ∀ p rest back, IsRun known ps (p :: rest) back →
      if p.kind ∈ known' then rule.Marks p (spell rest) else rule.Passes p.chars (spell rest)) :
    refine rule.split (blur known ps) = blur known' ps := by
  refine refine_blur hsub hps ?_
  intro run back _ hrun
  refine scan_lexemes ?_ []
  rintro front p rest rfl
  refine h p rest back ⟨?_, fun q hq => hrun.unknown q (List.mem_append_right _ hq), hrun.maximal⟩
  obtain ⟨before, hpart⟩ := hrun.part
  exact ⟨before ++ front, by simp [hpart]⟩

/-- A stage that finds nothing in any run changes nothing. -/
theorem refine_split_self {known : List TokenKind} {ps : List Piece}
    (hps : ∀ p ∈ ps, p.kind ≠ .unknown)
    (h : ∀ run back, run ≠ [] → IsRun known ps run back →
      rule.split (spell run) = [⟨.unknown, spell run⟩]) :
    refine rule.split (blur known ps) = blur known ps := by
  refine refine_blur (List.Subset.refl _) hps ?_
  intro run back hne hrun
  rw [h run back hne hrun, blur_run hne hrun.unknown]

end Rule

end PipeQuery
