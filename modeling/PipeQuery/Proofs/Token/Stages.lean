import PipeQuery.Proofs.Token.View

/-!
What the stages of the lexer have seen of the tokens in the end. Every cutting stage finds tokens of
its own kinds, and no later stage changes them. So every stage has seen the tokens of a text as they
are in the end, and tokens that every stage sees are what the stages find in the text that they
spell.
-/
namespace PipeQuery

open Piece

def Cut.step : Cut → Cut
  | .leave _ => .leave 0
  | cut => cut

namespace Words

/-- The rule for function names, which looks at an identifier from its first letter only. -/
def calls : Rule := fun before cs =>
  if (before.takeWhile Text.isIdentifierRest).any Text.isIdentifierStart then .leave 0
  else (functionNames before cs).step

private theorem calls_inside {before : List Char}
    (h : (before.takeWhile Text.isIdentifierRest).any Text.isIdentifierStart) (cs : List Char) :
    calls before cs = .leave 0 :=
  if_pos h

private theorem calls_outside {before : List Char}
    (h : (before.takeWhile Text.isIdentifierRest).any Text.isIdentifierStart = false)
    (cs : List Char) : calls before cs = (functionNames before cs).step := by
  simp [calls, h]

/-- The rest of an identifier is passed over. -/
theorem passes_calls {before run : List Char} (hrun : ∀ c ∈ run, Text.isIdentifierRest c)
    (hne : run ≠ [])
    (h : (before.takeWhile Text.isIdentifierRest).any Text.isIdentifierStart) (rest : List Char) :
    calls.scan 0 before (run ++ rest) =
      prepend run (calls.scan 0 (run.reverse ++ before) rest) := by
  refine Rule.scan_of_leave (p := ⟨.unknown, run⟩) hne ?_
  intro f c b hchars
  refine calls_inside ?_ _
  have hf : ∀ d ∈ f.reverse, Text.isIdentifierRest d := by
    intro d hd
    have hchars : run = f ++ c :: b := hchars
    exact hrun d (by simp [hchars, List.mem_reverse.mp hd])
  rw [List.takeWhile_append_of_pos hf, List.any_append, h, Bool.or_true]

/-- Both rules go on alike where no identifier is under way. -/
theorem functionNames_scan (n : Nat) : ∀ cs before, cs.length ≤ n →
    ((before.takeWhile Text.isIdentifierRest).any Text.isIdentifierStart = false ∨
      cs.head?.any Text.isIdentifierRest = false) →
    functionNames.scan 0 before cs = calls.scan 0 before cs := by
  induction n with
  | zero =>
    intro cs before hlength _
    cases List.length_eq_zero_iff.mp (Nat.le_zero.mp hlength)
    rfl
  | succ n ih =>
    intro cs before hlength hfresh
    cases cs with
    | nil => rfl
    | cons c cs =>
      rw [List.length_cons] at hlength
      by_cases hstart : Text.isIdentifierStart c
      · have hrest := Text.isIdentifierRest_of_start hstart
        have hbefore :
            (before.takeWhile Text.isIdentifierRest).any Text.isIdentifierStart = false :=
          hfresh.resolve_right (by simp [hrest])
        have hunder :
            ((c :: before).takeWhile Text.isIdentifierRest).any Text.isIdentifierStart := by
          simp [hrest, hstart]
        -- The identifier ends before the tail, so that the rules agree on the tail.
        obtain ⟨run, tail, hcs, hrun, htail⟩ : ∃ run tail, cs = run ++ tail ∧
            cs.takeWhile Text.isIdentifierRest = run ∧
            tail.head?.any Text.isIdentifierRest = false := by
          refine ⟨_, _, List.takeWhile_append_dropWhile.symm, rfl, ?_⟩
          have hnot := List.head?_dropWhile_not Text.isIdentifierRest cs
          cases hhead : (cs.dropWhile Text.isIdentifierRest).head? with
          | none => rfl
          | some d =>
            rw [hhead] at hnot
            simpa using hnot
        have hall : ∀ d ∈ run, Text.isIdentifierRest d := by
          rw [← hrun]
          exact List.all_eq_true.mp List.all_takeWhile
        have hrecur := ih tail (run.reverse ++ c :: before)
          (by rw [hcs, List.length_append] at hlength; omega) (.inr htail)
        have hname : functionNames before (c :: cs) = .mark .functionName run.length ∨
            functionNames before (c :: cs) = .leave run.length := by
          simp only [functionNames, hstart, if_true, hrun]
          split
          · exact .inl rfl
          · exact .inr rfl
        have hcall := calls_outside hbefore (c :: cs)
        subst hcs
        rcases hname with hname | hname
        · rw [hname, Cut.step] at hcall
          rw [Rule.scan, Rule.scan, hcall, hname]
          · simp only [Rule.scan_skip, hrecur]
          · rintro more ⟨⟩
        · rw [hname, Cut.step] at hcall
          rw [Rule.scan, Rule.scan, hcall, hname]
          simp only [List.take_left', Rule.scan_skip, hrecur, List.take_zero]
          cases hne : run with
          | nil => rfl
          | cons d run' =>
            rw [← hne, passes_calls hall (by simp [hne]) hunder, prepend_prepend]
            rfl
      · have hleave : functionNames before (c :: cs) = .leave 0 := by simp [functionNames, hstart]
        have hcall : calls before (c :: cs) = .leave 0 := by simp [calls, hleave, Cut.step]
        rw [Rule.scan, Rule.scan, hleave, hcall]
        simp only [List.take_zero]
        rw [ih cs (c :: before) (by omega) (.inl ?_)]
        by_cases hrest : Text.isIdentifierRest c
        · have hbefore := hfresh.resolve_right (by simp [hrest])
          simp [hrest, hstart, hbefore]
        · simp [hrest]

theorem functionNames_split : functionNames.split = calls.split := by
  funext cs
  exact functionNames_scan cs.length cs [] (Nat.le_refl _) (.inl rfl)

end Words

namespace Rule
variable {rule : Rule} {known kinds : List TokenKind} {ps : List Piece}

/-- A rule that finds lexemes of the kinds, and goes from one character to the next where it finds
none. -/
structure Seeks (rule : Rule) (kinds : List TokenKind) : Prop where
  steps : rule.Steps
  fits : rule.Fits
  marks : ∀ before cs kind more, rule before cs = .mark kind more → kind ∈ kinds

private theorem seeks_of_cases (hkinds : .unknown ∉ kinds)
    (hnil : ∀ before, rule before [] = .leave 0)
    (h : ∀ before c cs, rule before (c :: cs) = .leave 0 ∨
      ∃ kind more, rule before (c :: cs) = .mark kind more ∧ kind ∈ kinds ∧ more ≤ cs.length) :
    rule.Seeks kinds := by
  refine ⟨?_, ⟨?_, ?_⟩, ?_⟩
  · intro before cs
    cases cs with
    | nil => exact .inl (hnil before)
    | cons c cs =>
      refine (h before c cs).imp_right ?_
      rintro ⟨kind, more, hmark, hkind, -⟩
      exact ⟨kind, more, hmark, fun hunknown => hkinds (hunknown ▸ hkind)⟩
  · intro before c cs more hleave
    rcases h before c cs with hzero | ⟨kind, more', hmark, -⟩
    · rw [hleave] at hzero
      cases hzero
      exact Nat.zero_le _
    · rw [hleave] at hmark
      cases hmark
  · intro before c cs kind more hmark
    rcases h before c cs with hzero | ⟨kind', more', hmark', hkind, hle⟩
    · rw [hmark] at hzero
      cases hzero
    · rw [hmark] at hmark'
      cases hmark'
      exact ⟨fun hunknown => hkinds (hunknown ▸ hkind), hle⟩
  · intro before cs kind more hmark
    cases cs with
    | nil =>
      rw [hnil] at hmark
      cases hmark
    | cons c cs =>
      rcases h before c cs with hzero | ⟨kind', more', hmark', hkind, -⟩
      · rw [hmark] at hzero
        cases hzero
      · rw [hmark] at hmark'
        cases hmark'
        exact hkind

end Rule

private theorem Quoted.tailLength_le (quote : Char) (cs : List Char) :
    tailLength quote cs ≤ cs.length := by
  fun_induction tailLength quote cs with
  | case1 => exact Nat.le_refl _
  | case2 => exact Nat.le_refl _
  | case3 _ cs ih => simp only [List.length_cons]; omega
  | case4 cs => simp
  | case5 c cs _ _ _ ih => simp only [List.length_cons]; omega

namespace Literal

private theorem blockTail_le (cs : List Char) : blockTail cs ≤ cs.length := by
  fun_induction blockTail cs with
  | case1 => exact Nat.le_refl _
  | case2 cs => simp
  | case3 c cs _ ih => simp only [List.length_cons]; omega

def kinds : List TokenKind := [.doubleQuoted, .singleQuoted, .comment, .blockComment]

theorem seeks_quotes : quotesAndComments.Seeks kinds := by
  refine Rule.seeks_of_cases (by decide) (fun _ => rfl) ?_
  intro before c cs
  unfold quotesAndComments
  split
  next cs' heq =>
    cases heq
    exact .inr ⟨_, _, rfl, by decide, Quoted.tailLength_le '"' cs⟩
  next cs' heq =>
    cases heq
    exact .inr ⟨_, _, rfl, by decide, Quoted.tailLength_le '\'' cs⟩
  next cs' heq =>
    cases heq
    have hle := (List.takeWhile_prefix (l := cs') (· != '\n')).length_le
    exact .inr ⟨_, _, rfl, by decide, by simp only [List.length_cons]; omega⟩
  next cs' heq =>
    cases heq
    have hle := blockTail_le cs'
    exact .inr ⟨_, _, rfl, by decide, by simp only [List.length_cons]; omega⟩
  next => exact .inl rfl

private theorem seeks_params : params.Seeks [.param] := by
  refine Rule.seeks_of_cases (by decide) (fun _ => rfl) ?_
  intro before c cs
  unfold params
  split
  next cs' heq =>
    cases heq
    simp only
    split
    next hlt => exact .inr ⟨_, _, rfl, by decide, by simp only [List.length_cons]; omega⟩
    next => exact .inl rfl
  next => exact .inl rfl

end Literal

namespace Words

private theorem seeks_commands : commands.Seeks [.command] := by
  refine Rule.seeks_of_cases (by decide) (fun _ => rfl) ?_
  intro before c cs
  rw [commands]
  split
  · exact .inr ⟨_, _, rfl, by decide, (List.takeWhile_prefix _).length_le⟩
  · exact .inl rfl

private theorem seeks_calls : calls.Seeks [.functionName] := by
  refine Rule.seeks_of_cases (by decide) ?_ ?_
  · intro before
    unfold calls
    split <;> rfl
  · intro before c cs
    unfold calls
    split
    · exact .inl rfl
    · rw [functionNames]
      split
      · simp only
        split
        · exact .inr ⟨_, _, rfl, by decide, (List.takeWhile_prefix _).length_le⟩
        · exact .inl rfl
      · exact .inl rfl

theorem seeks_single {kind : TokenKind} (hkind : kind ≠ .unknown) (p : Char → Bool) :
    (Rule.single kind p).Seeks [kind] := by
  refine Rule.seeks_of_cases (by simpa using hkind.symm) (fun _ => rfl) ?_
  intro before c cs
  rw [Rule.single]
  split
  · exact .inr ⟨_, _, rfl, List.mem_cons_self, Nat.zero_le _⟩
  · exact .inl rfl

theorem afterPhrase?_nil {word : String} (hword : word ≠ "") (words : List String) :
    afterPhrase? (word :: words) [] = none := by
  refine afterPhrase?_of_afterWord? ?_ words
  cases hchars : word.toList with
  | nil => exact absurd (String.toList_eq_nil_iff.mp hchars) hword
  | cons w ws => rfl

private theorem seeks_phrase {kind : TokenKind} (hkind : kind ≠ .unknown) (word : String)
    (words : List String) (hword : word ≠ "") : (phrase kind (word :: words)).Seeks [kind] := by
  refine Rule.seeks_of_cases (by simpa using hkind.symm) ?_ ?_
  · intro before
    rw [phrase, afterPhrase?_nil hword]
    split <;> rfl
  · intro before c cs
    rw [phrase]
    split
    · split
      · exact .inr ⟨_, _, rfl, List.mem_cons_self, by simp only [List.length_cons]; omega⟩
      · exact .inl rfl
    · exact .inl rfl

theorem seeks_blanks : blanks.Seeks [.whitespace] := by
  refine Rule.seeks_of_cases (by decide) (fun _ => rfl) ?_
  intro before c cs
  rw [blanks]
  split
  · exact .inr ⟨_, _, rfl, by decide, (List.takeWhile_prefix _).length_le⟩
  · exact .inl rfl

end Words

namespace Piece
variable {known kinds : List TokenKind} {ps : List Piece} {rule : Rule}

/-- A stage that changes nothing in the view of the known kinds. -/
structure Keeps (known : List TokenKind) (stage : List Piece → List Piece) : Prop where
  nonempty : ∀ ps, (∀ p ∈ ps, p.chars ≠ []) → ∀ p ∈ stage ps, p.chars ≠ []
  blur_eq : ∀ ps, (∀ p ∈ ps, p.chars ≠ []) → blur known (stage ps) = blur known ps

theorem Keeps.foldl {α : Type} {stage : α → List Piece → List Piece} {as : List α}
    (h : ∀ a ∈ as, Keeps known (stage a)) :
    Keeps known fun ps => as.foldl (fun ps a => stage a ps) ps := by
  induction as with
  | nil => exact ⟨fun _ hps => hps, fun _ _ => rfl⟩
  | cons a as ih =>
    obtain ⟨ha, hrest⟩ := List.forall_mem_cons.mp h
    refine ⟨?_, ?_⟩
    · intro ps hps
      exact (ih hrest).nonempty _ (ha.nonempty ps hps)
    · intro ps hps
      rw [List.foldl_cons, (ih hrest).blur_eq _ (ha.nonempty ps hps), ha.blur_eq ps hps]

private theorem Keeps.comp {first second : List Piece → List Piece} (h₂ : Keeps known second)
    (h₁ : Keeps known first) : Keeps known fun ps => second (first ps) := by
  refine ⟨?_, ?_⟩
  · intro ps hps
    exact h₂.nonempty _ (h₁.nonempty ps hps)
  · intro ps hps
    rw [h₂.blur_eq _ (h₁.nonempty ps hps), h₁.blur_eq ps hps]

/-- Pieces of unknown kinds in front are one piece with the unclassified text after them. -/
theorem blur_append_run {run : List Piece} (hne : run ≠ []) (hrun : ∀ p ∈ run, p.kind ∉ known) :
    blur known (run ++ ps) = prepend (spell run) (blur known ps) := by
  induction run with
  | nil => exact absurd rfl hne
  | cons p run ih =>
    obtain ⟨hp, hrest⟩ := List.forall_mem_cons.mp hrun
    rw [List.cons_append, blur_cons hp, spell_cons]
    cases run with
    | nil => simp [spell]
    | cons q run => rw [ih (by simp) hrest, prepend_prepend]

private theorem keeps_refine (hseeks : rule.Seeks kinds) (hunknown : .unknown ∉ known)
    (hdisjoint : ∀ kind ∈ kinds, kind ∉ known) : Keeps known (refine rule.split) := by
  refine ⟨fun ps => Rule.nonempty_refine, ?_⟩
  intro ps hps
  induction ps with
  | nil => rfl
  | cons p ps ih =>
    obtain ⟨hp, hrest⟩ := List.forall_mem_cons.mp hps
    obtain ⟨kind, chars⟩ := p
    by_cases hkind : kind = .unknown
    · subst hkind
      have hkinds : ∀ p ∈ rule.split chars, p.kind ∉ known := by
        intro q hq
        by_cases hq' : q.kind = .unknown
        · rwa [hq']
        · obtain ⟨before, cs, more, hmark⟩ := Rule.exists_mark_of_mem_scan hq hq'
          exact hdisjoint _ (hseeks.marks _ _ _ _ hmark)
      rw [refine_unknown, blur_append_run (Rule.split_ne_nil hp) hkinds, ih hrest,
        (rule.covers_split chars).spells, blur_cons hunknown]
    · rw [refine_known hkind, blur, blur, ih hrest]

/-- A stage that gives kinds to pieces one by one. -/
theorem keeps_of_forall₂ {stage : List Piece → List Piece}
    (h : ∀ ps, List.Forall₂ (fun p q => q = p ∨ q.chars = p.chars ∧ p.kind ∉ known ∧ q.kind ∉ known)
      ps (stage ps)) : Keeps known stage := by
  refine ⟨?_, ?_⟩
  · intro ps hps q hq
    obtain ⟨p, hp, rfl | ⟨hchars, -⟩⟩ := exists_of_forall₂ (h ps) hq
    · exact hps q hp
    · rw [hchars]
      exact hps p hp
  · intro ps hps
    clear hps
    have hpairs := h ps
    generalize stage ps = qs at hpairs
    induction hpairs with
    | nil => rfl
    | @cons p q ps qs hpq _ ih =>
      rcases hpq with rfl | ⟨hchars, hp, hq⟩
      · rw [blur, blur, ih]
      · rw [blur_cons hp, blur_cons hq, hchars, ih]

private theorem keeps_classify {kindOf? : List Char → Option TokenKind}
    (hunknown : .unknown ∉ known) (h : ∀ cs kind, kindOf? cs = some kind → kind ∉ known) :
    Keeps known (classify kindOf?) := by
  refine keeps_of_forall₂ ?_
  intro ps
  rw [classify, List.forall₂_map_right_iff, List.forall₂_same]
  intro p _
  by_cases hkind : p.kind = .unknown
  · rw [if_pos hkind]
    split
    next kind hkind' => exact .inr ⟨rfl, hkind ▸ hunknown, h _ _ hkind'⟩
    next => exact .inl rfl
  · rw [if_neg hkind]
    exact .inl rfl

private theorem keeps_markBetween (hand : .logic .and ∉ known) (hbetween : .betweenAnd ∉ known)
    (waiting : Bool) : Keeps known (Lexer.markBetween waiting) := by
  refine keeps_of_forall₂ ?_
  intro ps
  refine (Lexer.separates_markBetween waiting ps).imp ?_
  rintro p q (rfl | ⟨hkind, rfl⟩)
  · exact .inl rfl
  · exact .inr ⟨rfl, hkind ▸ hand, hbetween⟩

private theorem blur_prepend (hunknown : .unknown ∉ known) (cs : List Char) (ps : List Piece) :
    blur known (prepend cs ps) = prepend cs (blur known ps) := by
  cases ps with
  | nil => simp [prepend, blur, hunknown]
  | cons p ps =>
    obtain ⟨kind, chars⟩ := p
    by_cases hkind : kind = .unknown
    · subst hkind
      rw [prepend, blur_cons hunknown, blur_cons hunknown, prepend_prepend]
    · rw [prepend_cons hkind, blur_cons hunknown]

theorem blur_scan (hseeks : rule.Seeks kinds) (hunknown : .unknown ∉ known) (hsub : kinds ⊆ known)
    (skip : Nat) (before cs : List Char) :
    blur known (rule.scan skip before cs) = rule.scan skip before cs := by
  fun_induction Rule.scan rule skip before cs with
  | case1 => rfl
  | case2 before skip c cs ih => exact ih
  | case3 before c cs more hrule ih => rw [blur_prepend hunknown, ih]
  | case4 before c cs kind more hrule ih =>
    rw [blur_cons_known (hsub (hseeks.marks _ _ _ _ hrule)), ih]

/-- In a view no two unclassified pieces are neighbours. -/
theorem blur_eq_cons {p : Piece} (hps : ∀ q ∈ ps, q.chars ≠ []) (hp : p.kind ∉ known)
    (h : blur known (p :: ps) = p :: ps) :
    p.kind = .unknown ∧ blur known ps = ps ∧ ∀ q, ps.head? = some q → q.kind ≠ .unknown := by
  have hblur : ∀ q ∈ blur known ps, q.chars ≠ [] := nonempty_blur hps
  rw [blur_cons hp] at h
  cases hview : blur known ps with
  | nil =>
    rw [hview, prepend] at h
    · obtain ⟨hfirst, rfl⟩ := List.cons.inj h
      exact ⟨by rw [← hfirst], rfl, by simp⟩
    · simp
  | cons q qs =>
    obtain ⟨kind, chars⟩ := q
    rw [hview] at h hblur
    by_cases hkind : kind = .unknown
    · subst hkind
      obtain ⟨heq, -⟩ := List.cons.inj h
      have hchars : p.chars ++ chars = p.chars := congrArg Piece.chars heq
      exact absurd (List.append_right_eq_self.mp hchars) (hblur _ List.mem_cons_self)
    · rw [prepend_cons hkind] at h
      obtain ⟨hfirst, rfl⟩ := List.cons.inj h
      refine ⟨by rw [← hfirst], rfl, ?_⟩
      rintro _ ⟨⟩
      exact hkind

/-- A stage keeps unclassified text in pieces that are no neighbours. -/
theorem blur_refine_self (hseeks : rule.Seeks kinds) (hunknown : .unknown ∉ known ++ kinds)
    (hne : ∀ p ∈ ps, p.chars ≠ []) (hps : blur known ps = ps) :
    blur (known ++ kinds) (refine rule.split ps) = refine rule.split ps := by
  induction ps with
  | nil => rfl
  | cons p ps ih =>
    obtain ⟨-, hrest⟩ := List.forall_mem_cons.mp hne
    by_cases hp : p.kind ∈ known
    · have hkind : p.kind ≠ .unknown := by
        rintro hkind
        exact hunknown (List.mem_append_left _ (hkind ▸ hp))
      rw [blur_cons_known hp] at hps
      rw [refine_known hkind, blur_cons_known (List.mem_append_left _ hp),
        ih hrest (List.cons.inj hps).2]
    · obtain ⟨hkind, hview, hhead⟩ := blur_eq_cons hrest hp hps
      have hsplit := blur_scan hseeks hunknown (List.subset_append_right known kinds) 0 [] p.chars
      have htail := ih hrest hview
      obtain ⟨kind, chars⟩ := p
      cases hkind
      rw [refine_unknown]
      cases ps with
      | nil =>
        rw [refine, List.flatMap_nil, List.append_nil]
        exact hsplit
      | cons q ps =>
        have hq := hhead q rfl
        have hmem : q.kind ∈ known := by
          refine Decidable.byContradiction fun hnot => ?_
          exact hq (blur_eq_cons (List.forall_mem_cons.mp hrest).2 hnot hview).1
        rw [refine_known hq] at htail ⊢
        rw [blur_cons_known (List.mem_append_left _ hmem)] at htail
        rw [blur_append_of_mem (List.mem_append_left _ hmem) hq, (List.cons.inj htail).2]
        exact congrArg (· ++ _) hsplit

end Piece

theorem Words.seeks_relations : relations.Seeks (Relation.all.map .relation) := by
  refine Rule.seeks_of_cases (by decide) (fun _ => rfl) ?_
  intro before c cs
  unfold relations
  split
  case h_7 => exact .inl rfl
  all_goals
    next heq =>
      cases heq
      exact .inr ⟨_, _, rfl, by decide, by simp⟩

theorem Words.mem_of_keyword? {cs : List Char} {kind : TokenKind} (h : keyword? cs = some kind) :
    kind ∈ keywords.map (·.2) := by
  obtain ⟨entry, hfind, rfl⟩ := Option.map_eq_some_iff.mp h
  exact List.mem_map_of_mem (List.mem_of_find?_eq_some hfind)

theorem Words.mem_of_arith? {cs : List Char} {kind : TokenKind} (h : arith? cs = some kind) :
    kind ∈ Arith.all.map .arith := by
  obtain ⟨op, hfind, rfl⟩ := Option.map_eq_some_iff.mp h
  exact List.mem_map_of_mem (List.mem_of_find?_eq_some hfind)

namespace Lexer

def stages : List (Rule × List TokenKind) :=
  [(Literal.quotesAndComments, Literal.kinds), (Literal.params, [.param]),
    (Words.commands, [.command]), (Words.calls, [.functionName]),
    (.single .openBracket (· == '('), [.openBracket]),
    (.single .closeBracket (· == ')'), [.closeBracket]),
    (Words.phrase .isNotNull ["is", "not", "null"], [.isNotNull]),
    (Words.phrase .isNull ["is", "null"], [.isNull]), (Words.blanks, [.whitespace]),
    (.single .pipe (· == '|'), [.pipe]), (.single .comma (· == ','), [.comma])]

def kindsOf (stages : List (Rule × List TokenKind)) : List TokenKind := stages.flatMap (·.2)

def runAll (stages : List (Rule × List TokenKind)) (ps : List Piece) : List Piece :=
  stages.foldl (fun ps stage => refine stage.1.split ps) ps

def settle (ps : List Piece) : List Piece :=
  classify (fun _ => some .word) (markBetween false (classify remaining
    (refine Words.relations.split (naming.foldl (fun ps kindOf? => classify kindOf? ps) ps))))

private theorem pieces_eq_settle (cs : List Char) :
    pieces cs = settle (runAll stages (start cs)) := by
  simp only [pieces, settle, runAll, stages, cutting, start, List.foldl_cons, List.foldl_nil,
    Words.functionNames_split]

theorem firstCut_eq_runAll (cs : List Char) : firstCut cs = runAll (stages.take 8) (start cs) := by
  simp only [firstCut, early, runAll, stages, cutting, List.take, List.foldl_cons, List.foldl_nil,
    Words.functionNames_split]

theorem seeks_of_mem_stages : ∀ stage ∈ stages, stage.1.Seeks stage.2 := by
  simp only [stages, List.forall_mem_cons]
  exact ⟨Literal.seeks_quotes, Literal.seeks_params, Words.seeks_commands, Words.seeks_calls,
    Words.seeks_single (by decide) _, Words.seeks_single (by decide) _,
    Words.seeks_phrase (by decide) _ _ (by decide), Words.seeks_phrase (by decide) _ _ (by decide),
    Words.seeks_blanks, Words.seeks_single (by decide) _, Words.seeks_single (by decide) _,
    by simp⟩

/-- Every kind is found by one stage. -/
theorem nodup_kindsOf : (.unknown :: kindsOf stages).Nodup := by decide

private theorem keeps_settle {known : List TokenKind} (hknown : known ⊆ kindsOf stages) :
    Keeps known settle := by
  have hother {kind : TokenKind} (h : kind ∉ kindsOf stages) : kind ∉ known :=
    fun hk => h (hknown hk)
  have hunknown : .unknown ∉ known := hother (by decide)
  have hnaming : ∀ kindOf? ∈ naming, Keeps known (classify kindOf?) := by
    have hkeyword : (Words.keywords.map (·.2)).all fun kind => !(kindsOf stages).contains kind := by
      decide
    have harith : (Arith.all.map .arith).all fun kind => !(kindsOf stages).contains kind := by
      decide
    simp only [naming, List.forall_mem_cons]
    refine ⟨keeps_classify hunknown ?_, keeps_classify hunknown ?_, keeps_classify hunknown ?_,
      keeps_classify hunknown ?_, by simp⟩
    · intro cs kind hkind
      have hall := List.all_eq_true.mp hkeyword kind (Words.mem_of_keyword? hkind)
      exact hother (by simpa using hall)
    · intro cs kind hkind
      split at hkind <;> cases hkind
      exact hother (by decide)
    · intro cs kind hkind
      split at hkind <;> cases hkind
      exact hother (by decide)
    · intro cs kind hkind
      have hall := List.all_eq_true.mp harith kind (Words.mem_of_arith? hkind)
      exact hother (by simpa using hall)
  have hrelations : Keeps known (refine Words.relations.split) := by
    have hall : (Relation.all.map .relation).all fun kind => !(kindsOf stages).contains kind := by
      decide
    refine keeps_refine Words.seeks_relations hunknown ?_
    intro kind hkind
    exact hother (by simpa using List.all_eq_true.mp hall kind hkind)
  have hnumbers : Keeps known (classify remaining) := by
    refine keeps_classify hunknown ?_
    intro cs kind hkind
    unfold remaining at hkind
    split at hkind <;> cases hkind
    exact hother (by decide)
  have hbounds : Keeps known (markBetween false) :=
    keeps_markBetween (hother (by decide)) (hother (by decide)) false
  have hwords : Keeps known (classify fun _ => some .word) := by
    refine keeps_classify hunknown ?_
    rintro cs kind ⟨⟩
    exact hother (by decide)
  exact hwords.comp (hbounds.comp (hnumbers.comp (hrelations.comp (Keeps.foldl hnaming))))

private theorem nonempty_runAll {ss : List (Rule × List TokenKind)} {ps : List Piece}
    (hps : ∀ p ∈ ps, p.chars ≠ []) : ∀ p ∈ runAll ss ps, p.chars ≠ [] := by
  induction ss generalizing ps with
  | nil => exact hps
  | cons stage ss ih => exact ih (Rule.nonempty_refine hps)

private theorem runAll_concat (ss : List (Rule × List TokenKind)) (stage : Rule × List TokenKind)
    (ps : List Piece) : runAll (ss ++ [stage]) ps = refine stage.1.split (runAll ss ps) := by
  simp [runAll]

/-- The pieces after some stages show the kinds that these have found. -/
theorem blur_runAll (cs : List Char) {done todo : List (Rule × List TokenKind)}
    (h : stages = done ++ todo) :
    blur (kindsOf done) (runAll done (start cs)) = runAll done (start cs) := by
  induction done using List.reverseRecOn generalizing todo with
  | nil =>
    cases cs with
    | nil => rfl
    | cons c cs => rfl
  | append_singleton done stage ih =>
    have hseeks := seeks_of_mem_stages stage (by simp [h])
    have hunknown : .unknown ∉ kindsOf (done ++ [stage]) := by
      intro hmem
      have hnodup := nodup_kindsOf
      rw [h, kindsOf, List.flatMap_append] at hnodup
      exact (List.nodup_cons.mp hnodup).1 (List.mem_append_left _ hmem)
    have hkinds : kindsOf (done ++ [stage]) = kindsOf done ++ stage.2 := by simp [kindsOf]
    rw [hkinds] at hunknown ⊢
    rw [runAll_concat]
    exact blur_refine_self hseeks hunknown (nonempty_runAll (nonempty_start cs))
      (@ih (stage :: todo) (by simp [h]))

/-- The tokens of a text, shown with the kinds that some stages find, are what these stages have
made of it. -/
theorem runAll_start (cs : List Char) {done todo : List (Rule × List TokenKind)}
    (h : stages = done ++ todo) : runAll done (start cs) = blur (kindsOf done) (pieces cs) := by
  have hnodup := nodup_kindsOf
  rw [h, kindsOf, List.flatMap_append] at hnodup
  obtain ⟨hunknown, hnodup⟩ := List.nodup_cons.mp hnodup
  have htodo : Keeps (kindsOf done) fun ps =>
      todo.foldl (fun ps stage => refine stage.1.split ps) ps := by
    refine Keeps.foldl ?_
    intro stage hstage
    refine keeps_refine (seeks_of_mem_stages stage (by simp [h, hstage])) ?_ ?_
    · exact fun hmem => hunknown (List.mem_append_left _ hmem)
    · intro kind hkind hmem
      exact (List.nodup_append.mp hnodup).2.2 kind hmem kind
        (List.mem_flatMap.mpr ⟨stage, hstage, hkind⟩) rfl
  have hsettle : Keeps (kindsOf done) settle := by
    refine keeps_settle ?_
    rw [h, kindsOf, kindsOf, List.flatMap_append]
    exact List.subset_append_left _ _
  have hstart : ∀ p ∈ runAll done (start cs), p.chars ≠ [] := nonempty_runAll (nonempty_start cs)
  have hrest : runAll stages (start cs) =
      todo.foldl (fun ps stage => refine stage.1.split ps) (runAll done (start cs)) := by
    rw [h, runAll, List.foldl_append]
    rfl
  rw [pieces_eq_settle, hrest, hsettle.blur_eq _ (htodo.nonempty _ hstart),
    htodo.blur_eq _ hstart, blur_runAll cs h]

theorem nonempty_known (cs : List Char) : ∀ p ∈ pieces cs, p.chars ≠ [] ∧ p.kind ≠ .unknown :=
  fun p hp => ⟨(covers_pieces cs).nonempty p hp, kind_ne_unknown_of_mem_pieces hp⟩

/-- Every cutting stage has seen the tokens of the text as they are in the end. -/
theorem sees_pieces (cs : List Char) {done todo : List (Rule × List TokenKind)} {rule : Rule}
    {kinds : List TokenKind} (h : stages = done ++ (rule, kinds) :: todo) :
    rule.Sees (kindsOf done) kinds [] (pieces cs) := by
  have hseeks := seeks_of_mem_stages (rule, kinds) (by simp [h])
  have hnext := @runAll_start cs (done ++ [(rule, kinds)]) todo (by simp [h])
  have hkinds : kindsOf (done ++ [(rule, kinds)]) = kindsOf done ++ kinds := by simp [kindsOf]
  rw [runAll_concat, runAll_start cs h, hkinds] at hnext
  exact (Rule.refine_blur_iff hseeks.steps hseeks.fits (nonempty_known cs)).mp hnext

/-- Lexemes that every one of some stages sees are found by them in the text that they spell. -/
theorem runAll_of_sees {ps : List Piece} (hps : ∀ p ∈ ps, p.chars ≠ [] ∧ p.kind ≠ .unknown)
    {done todo : List (Rule × List TokenKind)} (h : stages = done ++ todo)
    (hsees : ∀ front rule kinds back, done = front ++ (rule, kinds) :: back →
      rule.Sees (kindsOf front) kinds [] ps) :
    runAll done (start (spell ps)) = blur (kindsOf done) ps := by
  induction done using List.reverseRecOn generalizing todo with
  | nil =>
    cases ps with
    | nil => rfl
    | cons p ps =>
      have hne : spell (p :: ps) ≠ [] := by
        rw [spell_cons]
        exact List.append_ne_nil_of_left_ne_nil (hps p List.mem_cons_self).1 _
      rw [show kindsOf [] = [] from rfl, blur_run (by simp) (by simp)]
      simp [runAll, start, hne]
  | append_singleton done stage ih =>
    obtain ⟨rule, kinds⟩ := stage
    have hseeks := seeks_of_mem_stages (rule, kinds) (by simp [h])
    have hkinds : kindsOf (done ++ [(rule, kinds)]) = kindsOf done ++ kinds := by simp [kindsOf]
    have hdone := @ih ((rule, kinds) :: todo) (by simp [h]) (by
      rintro front rule' kinds' back rfl
      exact hsees front rule' kinds' (back ++ [(rule, kinds)]) (by simp))
    rw [runAll_concat, hdone, hkinds]
    exact (Rule.refine_blur_iff hseeks.steps hseeks.fits hps).mpr (hsees done rule kinds [] rfl)

end Lexer

end PipeQuery
