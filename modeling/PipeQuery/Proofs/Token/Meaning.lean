import PipeQuery.Proofs.Token.NullTest

/-!
The lexemes that mean something: the tokens of a text without blanks and comments. After the first
stages, a blank or a mark divides the text into parts that are worked on apart. Pieces that spell a
text are known up to the division of its blanks from those that mean something.
-/
namespace PipeQuery

open Piece

namespace Piece

def meaningful (ps : List Piece) : List Piece := ps.filter (!·.kind.isIgnorable)

theorem meaningful_append (ps qs : List Piece) :
    meaningful (ps ++ qs) = meaningful ps ++ meaningful qs :=
  List.filter_append ..

theorem meaningful_cons_ignorable {p : Piece} (hp : p.kind.isIgnorable) (ps : List Piece) :
    meaningful (p :: ps) = meaningful ps := by
  simp [meaningful, hp]

theorem meaningful_cons {p : Piece} (hp : p.kind.isIgnorable = false) (ps : List Piece) :
    meaningful (p :: ps) = p :: meaningful ps := by
  simp [meaningful, hp]

private theorem Fused.meaningful_eq {ps qs : List Piece} (h : Fused ps qs) :
    meaningful ps = meaningful qs := by
  induction h with
  | refl ps => rfl
  | cons p _ ih => simp only [meaningful, List.filter_cons] at ih ⊢; rw [ih]
  | join cs ds ps => simp [meaningful, TokenKind.isIgnorable]
  | trans _ _ first second => exact first.trans second

end Piece

namespace Rule
variable {kind : TokenKind} {d : Char}

/-- A mark divides a text. -/
theorem single_split (hkind : kind ≠ .unknown) (front back : List Char) :
    (single kind (· == d)).split (front ++ d :: back) =
      (single kind (· == d)).split front ++ ⟨kind, [d]⟩ :: (single kind (· == d)).split back := by
  have hforget (before cs : List Char) :
      (single kind (· == d)).scan 0 before cs = (single kind (· == d)).split cs := by
    have hforgets : (single kind (· == d)).Forgets before.reverse :=
      Words.Plain.forgets_of_eq (fun _ cs => by cases cs <;> rfl) _
    have hscan := hforgets.scan_eq 0 [] cs
    rwa [List.reverse_reverse, List.nil_append] at hscan
  induction front with
  | nil =>
    rw [List.nil_append, split, scan]
    simp only [single, beq_self_eq_true, if_true, List.take_zero, hforget]
    rfl
  | cons c front ih =>
    rw [List.cons_append, split, scan, split, scan]
    by_cases hc : c = d
    · simp only [single, hc, beq_self_eq_true, if_true, List.take_zero, hforget, ih]
      rfl
    · have hne : (c == d) = false := by simpa using hc
      simp only [single, hne, Bool.false_eq_true, if_false, List.take_zero, hforget, ih]
      exact @prepend_append_of_kind ⟨kind, [d]⟩ _ _ hkind [c]

/-- A mark divides pieces. -/
theorem refine_single_glue (hkind : kind ≠ .unknown) (ps qs : List Piece) :
    refine (single kind (· == d)).split (glue ps (prepend [d] qs)) =
      refine (single kind (· == d)).split ps ++
        ⟨kind, [d]⟩ :: refine (single kind (· == d)).split qs := by
  have hfront (cs : List Char) : refine (single kind (· == d)).split (prepend (cs ++ [d]) qs) =
      (single kind (· == d)).split cs ++ ⟨kind, [d]⟩ :: refine (single kind (· == d)).split qs := by
    cases qs with
    | nil =>
      rw [prepend, refine_unknown, single_split hkind]
      · simp [refine, split, scan]
      · simp
    | cons q qs =>
      obtain ⟨kind', chars⟩ := q
      by_cases hunknown : kind' = .unknown
      · subst hunknown
        rw [prepend, refine_unknown, refine_unknown, List.append_assoc, List.singleton_append,
          single_split hkind]
        simp
      · rw [prepend_cons hunknown, refine_unknown, single_split hkind]
        simp [split, scan]
  induction ps with
  | nil => exact hfront []
  | cons p ps ih =>
    obtain ⟨kind', chars⟩ := p
    by_cases hunknown : kind' = .unknown
    · subst hunknown
      cases ps with
      | nil =>
        rw [glue, if_pos rfl, prepend_prepend, hfront, refine_unknown]
        simp [refine]
      | cons q ps => rw [glue, refine_unknown, refine_unknown, ih, List.append_assoc]
    · rw [glue_known hunknown, refine_known hunknown, refine_known hunknown, ih, List.cons_append]

/-- A rule that stops at a character, and leaves it, works on both sides of it apart. -/
theorem Fits.parts_singleton {rule : Rule} (hfits : rule.Fits)
    (hforgets : ∀ before cs, rule before cs = rule [] cs)
    (hleave : ∀ before cs, rule before (d :: cs) = .leave 0)
    (hstop : ∀ before c b rest, rule before (c :: (b ++ d :: rest)) = rule before (c :: b))
    (text : List Char) : rule.Parts [d] text := by
  intro rest
  have hforget := (Words.Plain.forgets_of_eq hforgets (text ++ [d])).scan_eq 0 [] rest
  rw [List.nil_append, List.reverse_append, ← split] at hforget
  rw [split, List.singleton_append, hfits.scan_append (fun f c b _ before => hstop before c b rest)
    (Nat.zero_le _), List.append_nil, scan, hleave]
  simp only [List.take_zero]
  rw [show d :: text.reverse = [d].reverse ++ text.reverse from rfl, hforget, ← split]

end Rule

theorem Text.takeWhile_append_stop {q : Char → Bool} {d : Char} (hd : q d = false)
    (cs rest : List Char) : (cs ++ d :: rest).takeWhile q = cs.takeWhile q := by
  induction cs with
  | nil => simp [hd]
  | cons c cs ih => simp only [List.cons_append, List.takeWhile_cons, ih]

private theorem Words.parts_blanks {d : Char} (hd : Text.isBlank d = false) (text : List Char) :
    blanks.Parts [d] text := by
  refine seeks_blanks.fits.parts_singleton ?_ ?_ ?_ text
  · intro before cs
    cases cs <;> rfl
  · intro before cs
    simp [blanks, hd]
  · intro before c b rest
    simp only [blanks, Text.takeWhile_append_stop hd]

namespace Lexer

/-- What the later stages find in text from which the first have cut off all they find. -/
def found (text : List Char) : List Piece := meaningful (polish (Words.blanks.split text))

private theorem polish_nil : polish [] = [] := polish_known (by simp)

theorem found_nil : found [] = [] := by
  rw [found, show Words.blanks.split [] = [] from rfl, polish_nil]
  rfl

private theorem found_cons_dropWhile {c : Char} (hc : Text.isBlank c) (cs : List Char) :
    found (c :: cs) = found (cs.dropWhile Text.isBlank) := by
  have hblank (run : List Char) : polish [⟨.whitespace, run⟩] = [⟨.whitespace, run⟩] :=
    polish_known (by simp)
  rw [found, blanks_split_cons hc, polish_cons, hblank, List.singleton_append,
    meaningful_cons_ignorable rfl]
  rfl

private theorem found_cons_blank {c : Char} (hc : Text.isBlank c) (cs : List Char) :
    found (c :: cs) = found cs := by
  rw [found_cons_dropWhile hc]
  cases cs with
  | nil => rfl
  | cons d cs =>
    by_cases hd : Text.isBlank d
    · rw [List.dropWhile_cons_of_pos hd, found_cons_dropWhile hd]
    · rw [List.dropWhile_cons_of_neg hd]

/-- A blank divides a text. -/
theorem found_blank {c : Char} (hc : Text.isBlank c) (front back : List Char) :
    found (front ++ c :: back) = found front ++ found back := by
  have hfused := (fused_blanks_split hc front back).polish.meaningful_eq
  rw [polish_append, meaningful_append] at hfused
  rw [found, ← hfused, ← found, ← found, found_cons_blank hc]

def nameAll (ps : List Piece) : List Piece :=
  classify remaining (refine Words.relations.split
    (naming.foldl (fun ps kindOf? => classify kindOf? ps) ps))

theorem polish_eq (ps : List Piece) : polish ps =
    nameAll (refine (Rule.single .comma (· == ',')).split
      (refine (Rule.single .pipe (· == '|')).split ps)) := rfl

theorem nameAll_append (ps qs : List Piece) : nameAll (ps ++ qs) = nameAll ps ++ nameAll qs := by
  simp [nameAll, naming, refine_append, classify]

theorem nameAll_cons_known {p : Piece} (hp : p.kind ≠ .unknown) (ps : List Piece) :
    nameAll (p :: ps) = p :: nameAll ps := by
  simp [nameAll, naming, refine, classify, hp]

/-- A pipe divides a text. -/
theorem found_pipe (front back : List Char) :
    found (front ++ '|' :: back) = found front ++ ⟨.pipe, ['|']⟩ :: found back := by
  have hparts := Words.parts_blanks (d := '|') (by decide) front back
  rw [List.singleton_append] at hparts
  rw [found, hparts, polish_eq, Rule.refine_single_glue (by decide), refine_append,
    refine_known (by decide), nameAll_append, nameAll_cons_known (by decide), meaningful_append,
    meaningful_cons rfl]
  rfl

/-- A comma divides a text. -/
theorem found_comma (front back : List Char) :
    found (front ++ ',' :: back) = found front ++ ⟨.comma, [',']⟩ :: found back := by
  have hparts := Words.parts_blanks (d := ',') (by decide) front back
  have hpipe (text : List Char) : (Rule.single .pipe (· == '|')).Parts [','] text :=
    (Words.seeks_single (by decide) _).fits.parts_singleton (fun _ cs => by cases cs <;> rfl)
      (fun _ _ => rfl) (fun _ _ _ _ => rfl) text
  rw [List.singleton_append] at hparts
  rw [found, hparts, polish_eq, Rule.refine_glue hpipe (Words.blanks.covers_split front).nonempty
      (Words.blanks.covers_split back).nonempty, Rule.refine_single_glue (by decide),
    nameAll_append, nameAll_cons_known (by decide), meaningful_append, meaningful_cons rfl]
  rfl

/-- The kinds that the stages before blanks are cut off find. -/
def firstKinds : List TokenKind := earlyKinds ++ [.isNotNull, .isNull]

/-- What the later stages find in the text that is left between lexemes of the first kinds, after
some text that has been left before. -/
def sift (text : List Char) : List Piece → List Piece
  | [] => found text
  | p :: ps =>
    if p.kind ∈ firstKinds then found text ++ (meaningful [p] ++ sift [] ps)
    else sift (text ++ p.chars) ps

theorem sift_cons_known {p : Piece} (hp : p.kind ∈ firstKinds) (text : List Char)
    (ps : List Piece) : sift text (p :: ps) = found text ++ (meaningful [p] ++ sift [] ps) :=
  if_pos hp

theorem sift_cons {p : Piece} (hp : p.kind ∉ firstKinds) (text : List Char) (ps : List Piece) :
    sift text (p :: ps) = sift (text ++ p.chars) ps :=
  if_neg hp

/-- What has been found before a division stays. -/
theorem sift_append {front middle : List Char} {made : List Piece}
    (h : ∀ back, found (front ++ middle ++ back) = made ++ found back) (back : List Char)
    (ps : List Piece) : sift (front ++ middle ++ back) ps = made ++ sift back ps := by
  induction ps generalizing back with
  | nil => exact h back
  | cons p ps ih =>
    by_cases hp : p.kind ∈ firstKinds
    · rw [sift_cons_known hp, sift_cons_known hp, h, List.append_assoc]
    · rw [sift_cons hp, sift_cons hp, List.append_assoc _ back, ih]

theorem sift_blank {c : Char} (hc : Text.isBlank c) (front back : List Char) (ps : List Piece) :
    sift (front ++ c :: back) ps = found front ++ sift back ps := by
  have hdivide (back : List Char) : found (front ++ [c] ++ back) = found front ++ found back := by
    rw [List.append_assoc, List.singleton_append, found_blank hc]
  have hsift := sift_append hdivide back ps
  rwa [List.append_assoc, List.singleton_append] at hsift

theorem sift_blanks {run : List Char} (hne : run ≠ []) (hrun : ∀ c ∈ run, Text.isBlank c)
    (text : List Char) (ps : List Piece) : sift (text ++ run) ps = found text ++ sift [] ps := by
  induction run generalizing text with
  | nil => exact absurd rfl hne
  | cons c run ih =>
    obtain ⟨hc, hrest⟩ := List.forall_mem_cons.mp hrun
    cases run with
    | nil => exact sift_blank hc text [] ps
    | cons d run =>
      have hrest := ih (by simp) hrest []
      rw [List.nil_append, found_nil, List.nil_append] at hrest
      rw [sift_blank hc, hrest]

theorem sift_pipe (front back : List Char) (ps : List Piece) :
    sift (front ++ '|' :: back) ps = found front ++ ⟨.pipe, ['|']⟩ :: sift back ps := by
  have hdivide (back : List Char) : found (front ++ ['|'] ++ back) =
      (found front ++ [⟨.pipe, ['|']⟩]) ++ found back := by
    rw [List.append_assoc, List.singleton_append, found_pipe]
    simp
  have hsift := sift_append hdivide back ps
  rw [List.append_assoc, List.singleton_append] at hsift
  simpa using hsift

theorem sift_comma (front back : List Char) (ps : List Piece) :
    sift (front ++ ',' :: back) ps = found front ++ ⟨.comma, [',']⟩ :: sift back ps := by
  have hdivide (back : List Char) : found (front ++ [','] ++ back) =
      (found front ++ [⟨.comma, [',']⟩]) ++ found back := by
    rw [List.append_assoc, List.singleton_append, found_comma]
    simp
  have hsift := sift_append hdivide back ps
  rw [List.append_assoc, List.singleton_append] at hsift
  simpa using hsift

private theorem refine_prepend_nil (rule : Rule) (ps : List Piece) :
    refine rule.split (prepend [] ps) = refine rule.split ps := by
  cases ps with
  | nil => rfl
  | cons p ps =>
    obtain ⟨kind, chars⟩ := p
    by_cases hkind : kind = .unknown
    · subst hkind
      rfl
    · rw [prepend_cons hkind, refine_unknown]
      rfl

/-- The later stages work on the text between lexemes of the first kinds. -/
theorem meaningful_polish_blur {ps : List Piece} (hps : ∀ p ∈ ps, p.kind ≠ .unknown) :
    meaningful (polish (refine Words.blanks.split (blur firstKinds ps))) = sift [] ps := by
  -- Text that has been left before joins the text that is left first.
  have htext : ∀ text, meaningful (polish (refine Words.blanks.split
      (prepend text (blur firstKinds ps)))) = sift text ps := by
    induction ps with
    | nil =>
      intro text
      simp [blur, prepend, refine, sift, found]
    | cons p ps ih =>
      intro text
      obtain ⟨hp, hrest⟩ := List.forall_mem_cons.mp hps
      by_cases hk : p.kind ∈ firstKinds
      · have hone : polish [p] = [p] := polish_known (by simpa using hp)
        rw [blur_cons_known hk, prepend_cons hp, refine_unknown, refine_known hp, polish_append,
          polish_cons p, hone, meaningful_append, meaningful_append, sift_cons_known hk,
          ← ih hrest [], refine_prepend_nil]
        rfl
      · rw [blur_cons hk, prepend_prepend, sift_cons hk, ih hrest]
  rw [← htext, refine_prepend_nil]

end Lexer

namespace Piece
variable {ps qs : List Piece}

/-- Pieces with every blank in a piece of its own. -/
def loosen (ps : List Piece) : List Piece :=
  ps.flatMap fun p => if p.kind = .whitespace then p.chars.map (⟨.whitespace, [·]⟩) else [p]

private theorem loosen_cons_whitespace {p : Piece} (hp : p.kind = .whitespace) (ps : List Piece) :
    loosen (p :: ps) = p.chars.map (⟨.whitespace, [·]⟩) ++ loosen ps := by
  simp [loosen, hp]

private theorem loosen_cons {p : Piece} (hp : p.kind ≠ .whitespace) (ps : List Piece) :
    loosen (p :: ps) = p :: loosen ps := by
  simp [loosen, hp]

private theorem spell_loosen (ps : List Piece) : spell (loosen ps) = spell ps := by
  induction ps with
  | nil => rfl
  | cons p ps ih =>
    by_cases hp : p.kind = .whitespace
    · rw [loosen_cons_whitespace hp, spell_append, ih, spell_cons]
      simp [spell, List.flatMap_map]
    · rw [loosen_cons hp, spell_cons, spell_cons, ih]

private theorem meaningful_loosen (ps : List Piece) : meaningful (loosen ps) = meaningful ps := by
  induction ps with
  | nil => rfl
  | cons p ps ih =>
    by_cases hp : p.kind = .whitespace
    · rw [loosen_cons_whitespace hp, meaningful_append, ih,
        meaningful_cons_ignorable (by rw [hp]; rfl)]
      simp [meaningful, TokenKind.isIgnorable]
    · rw [loosen_cons hp]
      simp only [meaningful, List.filter_cons] at ih ⊢
      rw [ih]

private theorem blur_loosen {known : List TokenKind} (hknown : .whitespace ∉ known)
    (hps : ∀ p ∈ ps, p.chars ≠ []) : blur known (loosen ps) = blur known ps := by
  induction ps with
  | nil => rfl
  | cons p ps ih =>
    obtain ⟨hne, hrest⟩ := List.forall_mem_cons.mp hps
    by_cases hp : p.kind = .whitespace
    · have hrun : ∀ q ∈ p.chars.map (Piece.mk .whitespace [·]), q.kind ∉ known := by
        simp [hknown]
      rw [loosen_cons_whitespace hp, blur_append_run (by simpa using hne) hrun, ih hrest,
        blur_cons (hp ▸ hknown)]
      simp [spell, List.flatMap_map]
    · rw [loosen_cons hp, blur, blur, ih hrest]

structure Divided (p : Piece) : Prop where
  nonempty : p.chars ≠ []
  known : p.kind ≠ .unknown
  blank : p.kind = .whitespace → ∃ c, p = ⟨.whitespace, [c]⟩ ∧ Text.isBlank c
  starts : p.kind ≠ .whitespace → ∀ c, p.chars.head? = some c → Text.isBlank c = false

private theorem divided_of_mem_loosen (hps : ∀ p ∈ ps, p.Sound) : ∀ p ∈ loosen ps, p.Divided := by
  intro p hp
  obtain ⟨q, hq, hp⟩ := List.mem_flatMap.mp hp
  have hsq := hps q hq
  split at hp
  next hkind =>
    obtain ⟨c, hc, rfl⟩ := List.mem_map.mp hp
    exact ⟨by simp, by simp, fun _ => ⟨c, rfl, hsq.blank hkind c hc⟩, fun h => absurd rfl h⟩
  next hkind =>
    cases List.mem_singleton.mp hp
    exact ⟨hsq.nonempty, hsq.known, fun h => absurd h hkind, fun _ c hc => hsq.starts hkind hc⟩

private theorem isIgnorable_iff {kind : TokenKind} (hkind : kind ∉ Literal.kinds) :
    kind.isIgnorable ↔ kind = .whitespace := by
  cases kind <;> simp_all [Literal.kinds, TokenKind.isIgnorable]

section Align
variable {p q : Piece} {before : List Char}

/-- Where a literal starts a text, it is the first piece. -/
theorem literal_of_judges (hp : p.chars ≠ []) (hq : q.chars ≠ [])
    (hchars : p.chars ++ spell ps = q.chars ++ spell qs)
    (hsp : Literal.quotesAndComments.Judges Literal.kinds before p (spell ps))
    (hsq : Literal.quotesAndComments.Judges Literal.kinds before q (spell qs))
    (hkind : p.kind ∈ Literal.kinds) : p = q := by
  rw [Rule.Judges, if_pos hkind] at hsp
  by_cases hkind' : q.kind ∈ Literal.kinds
  · rw [Rule.Judges, if_pos hkind', ← hchars, hsp] at hsq
    obtain ⟨hkinds, hlength⟩ := Cut.mark.inj hsq
    have hpos := List.length_pos_iff.mpr hp
    have hpos' := List.length_pos_iff.mpr hq
    obtain ⟨hsame, -⟩ := List.append_inj hchars (by omega)
    cases p; cases q; cases hkinds; cases hsame; rfl
  · obtain ⟨c, cs, hcs⟩ := List.exists_cons_of_ne_nil hq
    rw [Rule.Judges, if_neg hkind'] at hsq
    have hleave := hsq [] c cs hcs
    rw [List.reverse_nil, List.nil_append, ← List.cons_append, ← hcs, ← hchars, hsp] at hleave
    cases hleave

/-- Where a blank starts a text, it is the first piece. -/
theorem blank_of_divided (hp : p.Divided) (hq : q.Divided)
    (hchars : p.chars ++ spell ps = q.chars ++ spell qs) (hkind : p.kind = .whitespace) :
    p = q := by
  obtain ⟨c, rfl, hc⟩ := hp.blank hkind
  obtain ⟨d, ds, hds⟩ := List.exists_cons_of_ne_nil hq.nonempty
  rw [hds] at hchars
  obtain ⟨rfl, -⟩ := List.cons.inj hchars
  by_cases hkind' : q.kind = .whitespace
  · obtain ⟨e, rfl, -⟩ := hq.blank hkind'
    obtain ⟨rfl, -⟩ := List.cons.inj hds
    rfl
  · have hnot := hq.starts hkind' c (by rw [hds]; rfl)
    rw [hc] at hnot
    cases hnot

private theorem head_eq_of_judges (hp : p.Divided) (hq : q.Divided)
    (hchars : p.chars ++ spell ps = q.chars ++ spell qs)
    (hmeans : meaningful (p :: ps) = meaningful (q :: qs))
    (hsp : Literal.quotesAndComments.Judges Literal.kinds before p (spell ps))
    (hsq : Literal.quotesAndComments.Judges Literal.kinds before q (spell qs)) : p = q := by
  by_cases hkind : p.kind ∈ Literal.kinds
  · exact literal_of_judges hp.nonempty hq.nonempty hchars hsp hsq hkind
  by_cases hkind' : q.kind ∈ Literal.kinds
  · exact (literal_of_judges hq.nonempty hp.nonempty hchars.symm hsq hsp hkind').symm
  by_cases hwhite : p.kind = .whitespace
  · exact blank_of_divided hp hq hchars hwhite
  by_cases hwhite' : q.kind = .whitespace
  · exact (blank_of_divided hq hp hchars.symm hwhite').symm
  have hp' : p.kind.isIgnorable = false := by
    rwa [← Bool.not_eq_true, isIgnorable_iff hkind]
  have hq' : q.kind.isIgnorable = false := by
    rwa [← Bool.not_eq_true, isIgnorable_iff hkind']
  rw [meaningful_cons hp', meaningful_cons hq'] at hmeans
  exact (List.cons.inj hmeans).1

end Align

theorem ahead_nil (ps : List Piece) : ahead [] ps = spell ps := by
  induction ps with
  | nil => rfl
  | cons p ps ih => rw [ahead_cons (by simp), spell_cons, ih]

/-- Divided pieces of a text are known from the literals and from what means something. -/
theorem eq_of_sees {before : List Char} (hps : ∀ p ∈ ps, p.Divided) (hqs : ∀ p ∈ qs, p.Divided)
    (hspell : spell ps = spell qs) (hmeans : meaningful ps = meaningful qs)
    (hsp : Literal.quotesAndComments.Sees [] Literal.kinds before ps)
    (hsq : Literal.quotesAndComments.Sees [] Literal.kinds before qs) : ps = qs := by
  induction ps generalizing qs before with
  | nil =>
    cases qs with
    | nil => rfl
    | cons q qs =>
      have hne := (hqs q List.mem_cons_self).nonempty
      rw [spell_cons] at hspell
      exact absurd (List.append_eq_nil_iff.mp hspell.symm).1 hne
  | cons p ps ih =>
    cases qs with
    | nil =>
      have hne := (hps p List.mem_cons_self).nonempty
      rw [spell_cons] at hspell
      exact absurd (List.append_eq_nil_iff.mp hspell).1 hne
    | cons q qs =>
      obtain ⟨hp, hps'⟩ := List.forall_mem_cons.mp hps
      obtain ⟨hq, hqs'⟩ := List.forall_mem_cons.mp hqs
      obtain ⟨hjp, hsp⟩ := (Rule.sees_cons (by simp)).mp hsp
      obtain ⟨hjq, hsq⟩ := (Rule.sees_cons (by simp)).mp hsq
      rw [ahead_nil] at hjp hjq
      rw [spell_cons, spell_cons] at hspell
      obtain rfl := head_eq_of_judges hp hq hspell hmeans hjp hjq
      have htail : meaningful ps = meaningful qs := by
        by_cases hignorable : p.kind.isIgnorable
        · rwa [meaningful_cons_ignorable hignorable, meaningful_cons_ignorable hignorable] at hmeans
        · rw [meaningful_cons (by simpa using hignorable),
            meaningful_cons (by simpa using hignorable)] at hmeans
          exact (List.cons.inj hmeans).2
      exact congrArg (p :: ·) (ih hps' hqs' (List.append_cancel_left hspell) htail hsp hsq)

/-- A stage that finds the same in the same view has seen the same. -/
theorem sees_congr {rule : Rule} {known kinds : List TokenKind} (hseeks : rule.Seeks kinds)
    (hps : ∀ p ∈ ps, p.chars ≠ [] ∧ p.kind ≠ .unknown)
    (hqs : ∀ p ∈ qs, p.chars ≠ [] ∧ p.kind ≠ .unknown) (hknown : blur known ps = blur known qs)
    (hkinds : blur (known ++ kinds) ps = blur (known ++ kinds) qs)
    (h : rule.Sees known kinds [] ps) : rule.Sees known kinds [] qs := by
  rw [← Rule.refine_blur_iff hseeks.steps hseeks.fits hps] at h
  rw [← Rule.refine_blur_iff hseeks.steps hseeks.fits hqs, ← hknown, ← hkinds, h]

/-- Pieces of a text are known from what means something, but for the division of blanks. -/
theorem loosen_eq_of_meaningful_eq (hps : ∀ p ∈ ps, p.Sound) (hqs : ∀ p ∈ qs, p.Sound)
    (hspell : spell ps = spell qs) (hmeans : meaningful ps = meaningful qs)
    (hsp : Literal.quotesAndComments.Sees [] Literal.kinds [] ps)
    (hsq : Literal.quotesAndComments.Sees [] Literal.kinds [] qs) : loosen ps = loosen qs := by
  have hsees (rs : List Piece) (hrs : ∀ p ∈ rs, p.Sound)
      (h : Literal.quotesAndComments.Sees [] Literal.kinds [] rs) :
      Literal.quotesAndComments.Sees [] Literal.kinds [] (loosen rs) := by
    have hne : ∀ p ∈ rs, p.chars ≠ [] := fun p hp => (hrs p hp).nonempty
    have hdivided := divided_of_mem_loosen hrs
    exact sees_congr Literal.seeks_quotes (fun p hp => ⟨hne p hp, (hrs p hp).known⟩)
      (fun p hp => ⟨(hdivided p hp).nonempty, (hdivided p hp).known⟩)
      (blur_loosen (by simp) hne).symm (blur_loosen (by decide) hne).symm h
  refine eq_of_sees (divided_of_mem_loosen hps) (divided_of_mem_loosen hqs) ?_ ?_
    (hsees ps hps hsp) (hsees qs hqs hsq)
  · rw [spell_loosen, spell_loosen, hspell]
  · rw [meaningful_loosen, meaningful_loosen, hmeans]

/-- Up to the division of blanks, the views before blanks are cut off are the same. -/
theorem blur_eq_of_loosen_eq {known : List TokenKind} (hknown : .whitespace ∉ known)
    (hps : ∀ p ∈ ps, p.chars ≠ []) (hqs : ∀ p ∈ qs, p.chars ≠ []) (h : loosen ps = loosen qs) :
    blur known ps = blur known qs := by
  rw [← blur_loosen hknown hps, h, blur_loosen hknown hqs]

end Piece

namespace Lexer
variable {ps qs : List Piece}

def SeenBy (ss : List (Rule × List TokenKind)) (ps : List Piece) : Prop :=
  ∀ done stage todo, ss = done ++ stage :: todo → stage.1.Sees (kindsOf done) stage.2 [] ps

theorem seenBy_nil (ps : List Piece) : SeenBy [] ps := by simp [SeenBy]

theorem SeenBy.concat {ss : List (Rule × List TokenKind)} (h : SeenBy ss ps)
    (stage : Rule × List TokenKind) (hstage : stage.1.Sees (kindsOf ss) stage.2 [] ps) :
    SeenBy (ss ++ [stage]) ps := by
  intro done stage' todo heq
  rcases List.eq_nil_or_concat todo with rfl | ⟨todo, last, rfl⟩
  · obtain ⟨rfl, hsame⟩ := List.append_inj' heq rfl
    cases hsame
    exact hstage
  · rw [List.concat_eq_append, ← List.cons_append, ← List.append_assoc] at heq
    obtain ⟨rfl, -⟩ := List.append_inj' heq rfl
    exact h done stage' todo rfl

def Seen (ps : List Piece) : Prop := SeenBy (stages.take 8) ps

private theorem Seen.notNull (h : Seen ps) :
    (Words.phrase .isNotNull ["is", "not", "null"]).Sees earlyKinds [.isNotNull] [] ps :=
  h (stages.take 6) _ _ rfl

theorem Seen.null (h : Seen ps) : (Words.phrase .isNull ["is", "null"]).Sees
    (earlyKinds ++ [.isNotNull]) [.isNull] [] ps :=
  h (stages.take 7) _ _ rfl

theorem Seen.bounded_notNull (h : Seen ps) (hsound : ∀ p ∈ ps, p.Sound) :
    Bounded earlyKinds .isNotNull ps := by
  have htest : (.isNotNull, ["is", "not", "null"]) ∈ Words.tests := by simp [Words.tests]
  exact bounded_of_sees htest (by decide) hsound h.notNull

theorem Seen.bounded_null (h : Seen ps) (hsound : ∀ p ∈ ps, p.Sound) :
    Bounded (earlyKinds ++ [.isNotNull]) .isNull ps := by
  have htest : (.isNull, ["is", "null"]) ∈ Words.tests := by simp [Words.tests]
  exact bounded_of_sees htest (by decide) hsound h.null

/-- Pieces are seen if the stages before the tests for null see them, and the tests stand between
blanks or ends, and no other pieces that spell one do. -/
theorem seen_of_not_holdsTest (h : SeenBy (stages.take 6) ps) (hsound : ∀ p ∈ ps, p.Sound)
    (hno : ¬HoldsTest ends ps) (hnotNull : Bounded earlyKinds .isNotNull ps)
    (hnull : Bounded (earlyKinds ++ [.isNotNull]) .isNull ps) : Seen ps :=
  (h.concat (Words.phrase .isNotNull ["is", "not", "null"], [.isNotNull])
    (sees_notNull_of_not_holdsTest hsound hno hnotNull)).concat
      (Words.phrase .isNull ["is", "null"], [.isNull])
      (sees_null_of_not_holdsTest hsound hno hnotNull hnull)

theorem Seen.not_holdsTest (h : Seen ps) (hsound : ∀ p ∈ ps, p.Sound) : ¬HoldsTest ends ps :=
  Lexer.not_holdsTest hsound h.notNull h.null

theorem seen_pieces (cs : List Char) : Seen (pieces cs) := by
  intro done stage todo h
  refine @sees_pieces cs done (todo ++ stages.drop 8) stage.1 stage.2 ?_
  calc stages = stages.take 8 ++ stages.drop 8 := (List.take_append_drop 8 stages).symm
    _ = done ++ stage :: (todo ++ stages.drop 8) := by
      rw [h, List.append_assoc, List.cons_append]

/-- Pieces that are seen are what the first stages find in the text that they spell. -/
theorem Seen.firstCut_eq (h : Seen ps) (hsound : ∀ p ∈ ps, p.Sound) :
    firstCut (spell ps) = blur firstKinds ps := by
  have hps (p : Piece) (hp : p ∈ ps) := And.intro (hsound p hp).nonempty (hsound p hp).known
  rw [firstCut_eq_runAll, @runAll_of_sees ps hps (stages.take 8) (stages.drop 8)
    (List.take_append_drop 8 stages).symm fun done rule kinds todo => h done (rule, kinds) todo]
  rfl

/-- The division of blanks is not seen before they are cut off. -/
theorem Seen.of_loosen_eq (h : Seen ps) (hps : ∀ p ∈ ps, p.Sound) (hqs : ∀ p ∈ qs, p.Sound)
    (hloosen : loosen ps = loosen qs) : Seen qs := by
  intro done stage todo hstages
  have hmem : stage ∈ stages :=
    List.mem_of_mem_take (hstages ▸ List.mem_append_right _ List.mem_cons_self)
  have hwhite : .whitespace ∉ kindsOf done ++ stage.2 := by
    have hnone : .whitespace ∉ kindsOf (stages.take 8) := by decide
    rw [hstages, kindsOf, List.flatMap_append, List.flatMap_cons, ← List.append_assoc] at hnone
    exact fun h => hnone (List.mem_append_left _ h)
  have hblur {known : List TokenKind} (hknown : .whitespace ∉ known) :
      blur known ps = blur known qs :=
    blur_eq_of_loosen_eq hknown (fun p hp => (hps p hp).nonempty)
      (fun p hp => (hqs p hp).nonempty) hloosen
  exact sees_congr (seeks_of_mem_stages _ hmem)
    (fun p hp => ⟨(hps p hp).nonempty, (hps p hp).known⟩)
    (fun p hp => ⟨(hqs p hp).nonempty, (hqs p hp).known⟩)
    (hblur fun h => hwhite (List.mem_append_left _ h)) (hblur hwhite)
    (h done stage todo hstages)

/-- If a text has the meaningful pieces of some that spell it, the first stages see these. -/
theorem seen_of_meaningful_eq (hsound : ∀ p ∈ ps, p.Sound)
    (hquotes : Literal.quotesAndComments.Sees [] Literal.kinds [] ps)
    (h : meaningful (pieces (spell ps)) = meaningful ps) : Seen ps := by
  have hpieces : ∀ p ∈ pieces (spell ps), p.Sound := fun p hp => sound_of_mem_pieces hp
  refine (seen_pieces (spell ps)).of_loosen_eq hpieces hsound ?_
  exact loosen_eq_of_meaningful_eq hpieces hsound (covers_pieces _).spells h (sees_quotes _) hquotes

private theorem meaningful_markBetween (waiting : Bool) (ps : List Piece) :
    meaningful (markBetween waiting ps) = markBetween waiting (meaningful ps) := by
  induction ps generalizing waiting with
  | nil => rfl
  | cons p ps ih =>
    by_cases hp : p.kind.isIgnorable
    · have hother : p.kind ∉ [.between, .logic .and, .pipe, .closeBracket] := by
        intro hmem
        simp only [List.mem_cons, List.not_mem_nil, or_false] at hmem
        rcases hmem with h | h | h | h <;> simp [h, TokenKind.isIgnorable] at hp
      have hkeep := @markBetween_append [p] (by simpa using hother) waiting ps
      rw [List.singleton_append, List.singleton_append] at hkeep
      rw [hkeep, meaningful_cons_ignorable hp, meaningful_cons_ignorable hp, ih]
    · obtain ⟨q, next, hq, hmark⟩ := exists_markBetween_cons waiting p
      have hp' : p.kind.isIgnorable = false := by simpa using hp
      have hq' : q.kind.isIgnorable = false := by
        rcases hq with hq | ⟨-, hq⟩
        · rw [hq, hp']
        · rw [hq]
          rfl
      rw [hmark, meaningful_cons hq', meaningful_cons hp', hmark, ih]

private theorem meaningful_classify_word (ps : List Piece) :
    meaningful (classify (fun _ => some .word) ps) =
      classify (fun _ => some .word) (meaningful ps) := by
  induction ps with
  | nil => rfl
  | cons p ps ih =>
    by_cases hp : p.kind = .unknown
    · have hcons (qs : List Piece) : classify (fun _ => some .word) (p :: qs) =
          ⟨.word, p.chars⟩ :: classify (fun _ => some .word) qs := by
        simp [classify, hp]
      rw [hcons, meaningful_cons rfl, meaningful_cons (by rw [hp]; rfl), hcons, ih]
    · have hcons (qs : List Piece) : classify (fun _ => some .word) (p :: qs) =
          p :: classify (fun _ => some .word) qs := by
        simp [classify, hp]
      by_cases hignorable : p.kind.isIgnorable
      · rw [hcons, meaningful_cons_ignorable hignorable, meaningful_cons_ignorable hignorable, ih]
      · rw [hcons, meaningful_cons (by simpa using hignorable),
          meaningful_cons (by simpa using hignorable), hcons, ih]

def conclude (ps : List Piece) : List Piece := classify (fun _ => some .word) (markBetween false ps)

theorem meaningful_conclude (ps : List Piece) :
    meaningful (conclude ps) = conclude (meaningful ps) := by
  rw [conclude, meaningful_classify_word, meaningful_markBetween, conclude]

/-- What a text means hangs on what the later stages find between the pieces that the first see. -/
theorem Seen.meaningful_pieces (h : Seen ps) (hsound : ∀ p ∈ ps, p.Sound) :
    meaningful (pieces (spell ps)) = conclude (sift [] ps) := by
  rw [pieces_eq_rough, ← conclude, meaningful_conclude, rough, h.firstCut_eq hsound,
    meaningful_polish_blur fun p hp => (hsound p hp).known]

def lexemes (text : String) : List (TokenKind × String) :=
  (Token.meaningful (tokens text)).map fun t => (t.kind, t.slice)

private theorem lexemes_eq (text : String) : lexemes text =
    (meaningful (pieces text.toList)).map fun p => (p.kind, String.ofList p.chars) := by
  have hplaces := places_tokens text
  rw [lexemes]
  generalize tokens text = ts at hplaces ⊢
  generalize pieces text.toList = ps at hplaces ⊢
  induction hplaces with
  | nil => rfl
  | @cons p t ps ts hp _ ih =>
    obtain ⟨hkind, hslice⟩ := hp
    simp only [Token.meaningful, meaningful, List.filter_cons, hkind] at ih ⊢
    split
    · rw [List.map_cons, List.map_cons, ih, hkind, hslice]
    · exact ih

private theorem lexemes_eq_iff {text text' : String} : lexemes text' = lexemes text ↔
    meaningful (pieces text'.toList) = meaningful (pieces text.toList) := by
  have hinjective : Function.Injective fun p : Piece => (p.kind, String.ofList p.chars) := by
    rintro ⟨kind, cs⟩ ⟨kind', cs'⟩ h
    obtain ⟨hkind, hchars⟩ := Prod.mk.inj h
    cases hkind
    cases String.ofList_injective hchars
    rfl
  rw [lexemes_eq, lexemes_eq, (List.map_injective_iff.mpr hinjective).eq_iff]

/-- Pieces that mean what a text does spell a text that means the same, if the first stages see them
and the later ones find the same between them. -/
theorem lexemes_eq_iff_seen {text text' : String} (hspell : text'.toList = spell ps)
    (hsound : ∀ p ∈ ps, p.Sound)
    (hquotes : Literal.quotesAndComments.Sees [] Literal.kinds [] ps)
    (hmeans : meaningful ps = meaningful (pieces text.toList)) :
    lexemes text' = lexemes text ↔
      Seen ps ∧ conclude (sift [] ps) = conclude (sift [] (pieces text.toList)) := by
  have htext := (seen_pieces text.toList).meaningful_pieces fun p hp => sound_of_mem_pieces hp
  rw [(covers_pieces text.toList).spells] at htext
  rw [lexemes_eq_iff, hspell, ← htext]
  constructor
  · intro h
    have hseen := seen_of_meaningful_eq hsound hquotes (h.trans hmeans.symm)
    exact ⟨hseen, by rw [← h, hseen.meaningful_pieces hsound]⟩
  · rintro ⟨hseen, hsame⟩
    rw [hseen.meaningful_pieces hsound, hsame]

/-- A text that is written token by token. -/
theorem toList_join_tokens {write : Token → String} {write' : Piece → List Char}
    (h : ∀ p t, Places p t → (write t).toList = write' p) (text : String) :
    (String.join ((tokens text).map write)).toList = (pieces text.toList).flatMap write' := by
  have hplaces := places_tokens text
  generalize tokens text = ts at hplaces ⊢
  generalize pieces text.toList = ps at hplaces ⊢
  rw [String.toList_join]
  induction hplaces with
  | nil => rfl
  | @cons p t ps ts hp _ ih =>
    rw [List.map_cons, List.flatMap_cons, List.flatMap_cons, h p t hp, ih]

end Lexer

end PipeQuery
