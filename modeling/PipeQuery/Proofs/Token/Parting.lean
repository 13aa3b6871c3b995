import PipeQuery.Proofs.Group.Flatten
import PipeQuery.Proofs.Token.Named

/-!
A text with a word between blanks in its middle falls into the text before the word, the word, and
the text after it. The lexer works on both sides as if each stood alone, unless a literal, a comment
or a parameter starts before the word and goes on after it. Only blanks around the word are taken
together with those next to them.
-/
namespace PipeQuery

open Piece

namespace Piece

/-- Puts pieces side by side. Unclassified text on both sides of the joint is one piece. -/
def glue : List Piece → List Piece → List Piece
  | [], qs => qs
  | [p], qs => if p.kind = .unknown then prepend p.chars qs else p :: qs
  | p :: q :: ps, qs => p :: glue (q :: ps) qs

theorem glue_known {p : Piece} (hp : p.kind ≠ .unknown) (ps qs : List Piece) :
    glue (p :: ps) qs = p :: glue ps qs := by
  cases ps with
  | nil => simp [glue, hp]
  | cons q ps => rfl

private theorem glue_prepend (cs : List Char) (ps qs : List Piece) :
    glue (prepend cs ps) qs = prepend cs (glue ps qs) := by
  cases ps with
  | nil => simp [glue, prepend]
  | cons p ps =>
    obtain ⟨kind, chars⟩ := p
    by_cases hkind : kind = .unknown
    · subst hkind
      cases ps with
      | nil => rw [prepend, glue, if_pos rfl, glue, if_pos rfl, prepend_prepend]
      | cons q ps => rfl
    · rw [prepend_cons hkind, glue, glue_known hkind, prepend_cons hkind]

private theorem glue_append_left {qs : List Piece} (hne : qs ≠ []) (ps rs : List Piece) :
    glue (ps ++ qs) rs = ps ++ glue qs rs := by
  induction ps with
  | nil => rfl
  | cons p ps ih =>
    rw [List.cons_append, List.cons_append, ← ih]
    cases hps : ps ++ qs with
    | nil => simp_all
    | cons q rest => rfl

private theorem glue_append_right {qs : List Piece} (hne : qs ≠ []) (ps rs : List Piece) :
    glue ps (qs ++ rs) = glue ps qs ++ rs := by
  fun_induction glue ps qs with
  | case1 qs => rfl
  | case2 qs p hp => rw [glue, if_pos hp, prepend_append hne]
  | case3 qs p hp => rw [glue, if_neg hp, List.cons_append]
  | case4 qs p q ps ih => rw [glue, ih hne, List.cons_append]

end Piece

namespace Rule
variable {rule : Rule} {text rest joint : List Char}

/-- What the rule finds is classified and ends with the text, if not before it. -/
structure Fits (rule : Rule) : Prop where
  leave {before : List Char} {c : Char} {cs : List Char} {more : Nat} :
    rule before (c :: cs) = .leave more → more ≤ cs.length
  mark {before : List Char} {c : Char} {cs : List Char} {kind : TokenKind} {more : Nat} :
    rule before (c :: cs) = .mark kind more → kind ≠ .unknown ∧ more ≤ cs.length

/-- If the rule does the same in a text when other text follows, then it goes on with the other text
where it has come to the end of the first. -/
theorem Fits.scan_append (hfits : rule.Fits)
    (h : ∀ f c b, text = f ++ c :: b →
      ∀ before, rule before (c :: (b ++ rest)) = rule before (c :: b))
    {skip : Nat} (hskip : skip ≤ text.length) (before : List Char) :
    rule.scan skip before (text ++ rest) =
      glue (rule.scan skip before text) (rule.scan 0 (text.reverse ++ before) rest) := by
  induction text generalizing skip before with
  | nil =>
    cases Nat.le_zero.mp hskip
    rfl
  | cons c text ih =>
    have htext : ∀ f d b, text = f ++ d :: b →
        ∀ before, rule before (d :: (b ++ rest)) = rule before (d :: b) :=
      fun f d b heq => h (c :: f) d b (by rw [heq, List.cons_append])
    have hreverse : (c :: text).reverse ++ before = text.reverse ++ c :: before := by simp
    rw [List.cons_append, hreverse]
    cases skip with
    | zero =>
      rw [scan, scan, h [] c text rfl before]
      cases hrule : rule before (c :: text) with
      | leave more =>
        have hmore := hfits.leave hrule
        simp only [List.take_append_of_le_length hmore, ih htext hmore, glue_prepend]
      | mark kind more =>
        obtain ⟨hkind, hmore⟩ := hfits.mark hrule
        simp only [List.take_append_of_le_length hmore, ih htext hmore]
        exact (glue_known hkind _ _).symm
    | succ skip =>
      rw [scan, scan]
      exact ih htext (Nat.le_of_succ_le_succ hskip) (c :: before)

/-- The rule works on the text before a joint and on the text after it as if each stood alone. -/
def Parts (rule : Rule) (joint text : List Char) : Prop :=
  ∀ rest, rule.split (text ++ (joint ++ rest)) =
    glue (rule.split text) (prepend joint (rule.split rest))

/-- A rule that sees no further than a blank, on either side, works on the two sides apart. -/
theorem Fits.parts {word : List Char} (hfits : rule.Fits)
    (hblank : ∀ before cs, rule before (' ' :: cs) = .leave 0)
    (hforgets : rule.Forgets (text ++ [' '])) (hskips : rule.Skips word)
    (h : ∀ f c b, text = f ++ c :: b → ∀ rest before,
      rule before (c :: (b ++ ' ' :: (word ++ rest))) = rule before (c :: b)) :
    rule.Parts (' ' :: word) text := by
  intro rest
  have hforget := hforgets.scan_eq 0 [] (word ++ rest)
  rw [List.nil_append, List.reverse_append, ← split, hskips] at hforget
  have hjoint : rule.scan 0 text.reverse (' ' :: (word ++ rest)) =
      prepend (' ' :: word) (rule.split rest) := by
    rw [scan, hblank]
    simp only [List.take_zero]
    rw [show ' ' :: text.reverse = [' '].reverse ++ text.reverse from rfl, hforget,
      prepend_prepend, List.singleton_append]
  rw [split, List.cons_append, hfits.scan_append (fun f c b heq => h f c b heq rest)
    (Nat.zero_le _), List.append_nil, hjoint, ← split]

theorem Parts.refine_prepend (h : rule.Parts joint text) {ps : List Piece}
    (hps : ∀ p ∈ ps, p.chars ≠ []) :
    refine rule.split (prepend (text ++ joint) ps) =
      glue (rule.split text) (prepend joint (refine rule.split ps)) := by
  have halone : rule.split (text ++ joint) = glue (rule.split text) [⟨.unknown, joint⟩] := by
    have hjoint := h []
    rw [List.append_nil] at hjoint
    exact hjoint
  cases ps with
  | nil => simpa [refine, prepend] using halone
  | cons p ps =>
    obtain ⟨kind, chars⟩ := p
    by_cases hkind : kind = .unknown
    · subst hkind
      have hne : rule.split chars ≠ [] := split_ne_nil (hps _ List.mem_cons_self)
      obtain ⟨more, others, hstart⟩ := exists_prepend joint (rule.split chars)
      rw [prepend, refine_unknown, refine_unknown, List.append_assoc, h, prepend_append hne,
        glue_append_right (by simp [hstart])]
    · rw [prepend_cons hkind, refine_unknown, refine_known hkind, prepend_cons hkind, halone,
        ← glue_append_right (by simp)]
      rfl

/-- A stage whose rule works on both sides of the joint apart. -/
theorem refine_glue (h : ∀ text, rule.Parts joint text) {ps qs : List Piece}
    (hps : ∀ p ∈ ps, p.chars ≠ []) (hqs : ∀ p ∈ qs, p.chars ≠ []) :
    refine rule.split (glue ps (prepend joint qs)) =
      glue (refine rule.split ps) (prepend joint (refine rule.split qs)) := by
  induction ps with
  | nil => exact (h []).refine_prepend hqs
  | cons p ps ih =>
    obtain ⟨-, hrest⟩ := List.forall_mem_cons.mp hps
    obtain ⟨kind, chars⟩ := p
    by_cases hkind : kind = .unknown
    · subst hkind
      cases ps with
      | nil =>
        rw [glue, if_pos rfl, prepend_prepend, (h chars).refine_prepend hqs, refine_unknown]
        simp [refine]
      | cons q ps =>
        have hne : refine rule.split (q :: ps) ≠ [] := by
          have hsplit : ∀ cs, cs ≠ [] → rule.split cs ≠ [] := fun _ => split_ne_nil
          have hlength := Lexer.length_refine hsplit hrest
          intro hnil
          simp [hnil] at hlength
        rw [glue, refine_unknown, refine_unknown, ih hrest, glue_append_left hne]
    · rw [glue_known hkind, refine_known hkind, refine_known hkind, glue_known hkind, ih hrest]

end Rule

namespace Words

/-- A word that can stand between two texts: the first stages find nothing in it, and no test for
null goes on with it. -/
structure Divides (word : List Char) : Prop where
  plain : Plain word
  nonempty : word ≠ []
  test : word.head?.any (Text.sameLetter 'n') = false

private theorem takeWhile_blank (p : Char → Bool) (hp : p ' ' = false) (cs rest : List Char) :
    (cs ++ ' ' :: rest).takeWhile p = cs.takeWhile p := by
  induction cs with
  | nil => simp [hp]
  | cons c cs ih => simp only [List.cons_append, List.takeWhile_cons, ih]

private theorem fits_functionNames : functionNames.Fits := by
  constructor
  · intro before c cs more h
    have hlength := (List.takeWhile_prefix (l := cs) Text.isIdentifierRest).length_le
    grind [functionNames]
  · intro before c cs kind more h
    have hlength := (List.takeWhile_prefix (l := cs) Text.isIdentifierRest).length_le
    grind [functionNames]

/-- An identifier ends at a blank, which is no open bracket. -/
theorem functionNames_blank (before : List Char) (c : Char) (cs rest : List Char) :
    functionNames before (c :: (cs ++ ' ' :: rest)) = functionNames before (c :: cs) := by
  have hrest : Text.isIdentifierRest ' ' = false := by decide
  have hlength := (List.takeWhile_prefix (l := cs) Text.isIdentifierRest).length_le
  have hhead : (((cs ++ ' ' :: rest).drop (cs.takeWhile Text.isIdentifierRest).length).head? ==
      some '(') = ((cs.drop (cs.takeWhile Text.isIdentifierRest).length).head? == some '(') := by
    rw [List.drop_append_of_le_length hlength]
    cases cs.drop (cs.takeWhile Text.isIdentifierRest).length with
    | nil => rfl
    | cons d ds => rfl
  simp only [functionNames, takeWhile_blank _ hrest, List.take_append_of_le_length hlength, hhead]

private theorem parts_functionNames {word : List Char} (h : Plain word) (text : List Char) :
    functionNames.Parts (' ' :: (word ++ [' '])) text := by
  refine fits_functionNames.parts ?_ ?_ h.skips_functionNames ?_
  · intro before cs
    simp [functionNames, show Text.isIdentifierStart ' ' = false by decide]
  · exact Plain.forgets_of_eq (fun _ cs => by cases cs <;> rfl) _
  · intro f c b _ rest before
    exact functionNames_blank before c b _

private theorem fits_single {kind : TokenKind} (hkind : kind ≠ .unknown) (p : Char → Bool) :
    (Rule.single kind p).Fits := by
  constructor
  · intro before c cs more h
    grind [Rule.single]
  · intro before c cs kind' more h
    grind [Rule.single]

private theorem parts_single {word : List Char} (h : Plain word) (kind : TokenKind)
    (hkind : kind ≠ .unknown) {d : Char} (hd : d ∈ ['"', '\'', '(', ')', '|'])
    (text : List Char) : (Rule.single kind (· == d)).Parts (' ' :: (word ++ [' '])) text := by
  refine (fits_single hkind _).parts ?_ ?_ (h.skips_single kind hd) ?_
  · intro before cs
    have hne : ' ' ≠ d := by
      rintro rfl
      simp at hd
    simp [Rule.single, hne]
  · exact Plain.forgets_of_eq (fun _ cs => by cases cs <;> rfl) _
  · intro f c b _ rest before
    rfl

private theorem afterWord?_blank {word : List Char} (h : ∀ w ∈ word, Text.sameLetter w ' ' = false)
    (cs rest : List Char) :
    afterWord? word (cs ++ ' ' :: rest) = (afterWord? word cs).map (· ++ ' ' :: rest) := by
  induction word generalizing cs with
  | nil => rfl
  | cons w word ih =>
    obtain ⟨hw, hword⟩ := List.forall_mem_cons.mp h
    cases cs with
    | nil => simp [afterWord?, hw]
    | cons c cs =>
      by_cases hc : Text.sameLetter w c
      · simp only [List.cons_append, afterWord?, hc, if_true, ih hword]
      · simp [afterWord?, hc]

theorem afterPhrase?_of_afterWord? {word : String} {cs : List Char}
    (h : afterWord? word.toList cs = none) (words : List String) :
    afterPhrase? (word :: words) cs = none := by
  cases words with
  | nil => simp [afterPhrase?, h]
  | cons next words => simp [afterPhrase?, h]

/-- Blanks before a blank end there, or all of them are followed by what comes after it. -/
theorem afterBlanks?_blank {c : Char} (hc : Text.isBlank c = false) (cs rest : List Char) :
    afterBlanks? (cs ++ ' ' :: c :: rest) = (afterBlanks? cs).map (· ++ ' ' :: c :: rest) ∨
      afterBlanks? (cs ++ ' ' :: c :: rest) = some (c :: rest) ∧
        (afterBlanks? cs = none ∨ afterBlanks? cs = some []) := by
  have hspace : Text.isBlank ' ' := by decide
  have hdrop : (cs ++ ' ' :: c :: rest).dropWhile Text.isBlank = _ := List.dropWhile_append
  cases cs with
  | nil => exact .inr (by simp [afterBlanks?, hspace, hc])
  | cons d cs =>
    by_cases hd : Text.isBlank d
    · rw [afterBlanks?, afterBlanks?, hdrop]
      cases (d :: cs).dropWhile Text.isBlank with
      | nil => exact .inr (by simp [hd, hspace, hc])
      | cons e es => exact .inl (by simp [hd])
    · exact .inl (by simp [afterBlanks?, hd])

/-- A phrase does not reach over a blank, unless the text after the blank goes on with it. -/
theorem afterPhrase?_blank {words : List String} {c : Char} {rest : List Char}
    (hletters : ∀ word ∈ words, ∀ w ∈ word.toList, Text.sameLetter w ' ' = false)
    (hwords : ∀ word ∈ words, word.toList ≠ []) (hblank : Text.isBlank c = false)
    (hrest : ∀ word ∈ words.tail, afterWord? word.toList (c :: rest) = none) (cs : List Char) :
    afterPhrase? words (cs ++ ' ' :: c :: rest) =
      (afterPhrase? words cs).map (· ++ ' ' :: c :: rest) := by
  induction words generalizing cs with
  | nil => rfl
  | cons word words ih =>
    have hword := afterWord?_blank (hletters word List.mem_cons_self) cs (c :: rest)
    cases hafter : afterWord? word.toList cs with
    | none =>
      rw [hafter] at hword
      rw [afterPhrase?_of_afterWord? hword, afterPhrase?_of_afterWord? hafter]
      rfl
    | some after =>
      rw [hafter, Option.map_some] at hword
      cases words with
      | nil =>
        have hspace : Text.isBlank ' ' := by decide
        cases after with
        | nil => simp [afterPhrase?, hword, hafter, hspace]
        | cons d after => by_cases hd : Text.isBlank d <;> simp [afterPhrase?, hword, hafter, hd]
      | cons next words =>
        have hnil : afterWord? next.toList [] = none := by
          cases hchars : next.toList with
          | nil => exact absurd hchars (hwords next (by simp))
          | cons w ws => rfl
        have hih := ih (fun w hw => hletters w (List.mem_cons_of_mem _ hw))
          (fun w hw => hwords w (List.mem_cons_of_mem _ hw))
          (fun w hw => hrest w (List.mem_cons_of_mem _ hw))
        have hnext := afterPhrase?_of_afterWord? (hrest next List.mem_cons_self) words
        have hend := afterPhrase?_of_afterWord? hnil words
        rcases afterBlanks?_blank hblank after rest with hgap | ⟨hgap, hnone | hnone⟩
        · cases hblanks : afterBlanks? after with
          | none => simp [afterPhrase?, hword, hafter, hgap, hblanks]
          | some more => simp [afterPhrase?, hword, hafter, hgap, hblanks, hih]
        · simp [afterPhrase?, hword, hafter, hgap, hnone, hnext]
        · simp [afterPhrase?, hword, hafter, hgap, hnone, hnext, hend]

private theorem fits_phrase {kind : TokenKind} (hkind : kind ≠ .unknown) (words : List String) :
    (phrase kind words).Fits := by
  constructor
  · intro before c cs more h
    rw [phrase] at h
    split at h
    · split at h <;> cases h
      exact Nat.zero_le _
    · cases h
      exact Nat.zero_le _
  · intro before c cs kind' more h
    rw [phrase] at h
    split at h
    · split at h
      · cases h
        exact ⟨hkind, by simp only [List.length_cons]; omega⟩
      · cases h
    · cases h

/-- A test for null ends before a blank that is not followed by its next word. -/
theorem parts_phrase {word : List Char} (h : Divides word) (kind : TokenKind)
    (hkind : kind ≠ .unknown) (next : String) (words : List String)
    (hletters : ("is" :: next :: words).all fun w => w.toList.all (!Text.sameLetter · ' '))
    (hwords : ∀ w ∈ next :: words, w.toList.head? = some 'n') (text : List Char) :
    (phrase kind ("is" :: next :: words)).Parts (' ' :: (word ++ [' '])) text := by
  obtain ⟨d, ds, rfl⟩ := List.exists_cons_of_ne_nil h.nonempty
  have hd : Text.isBlank d = false := (h.plain.chars d (by simp)).1
  have htest : Text.sameLetter 'n' d = false := by simpa using h.test
  have hletters : ∀ w ∈ "is" :: next :: words, ∀ l ∈ w.toList, Text.sameLetter l ' ' = false := by
    intro w hw l hl
    simpa using List.all_eq_true.mp (List.all_eq_true.mp hletters w hw) l hl
  refine (fits_phrase hkind _).parts ?_ ?_ (h.plain.skips_phrase kind next words) ?_
  · intro before cs
    have hnone := Lexer.plain_nil.afterPhrase?_eq_none next words cs
    rw [List.nil_append] at hnone
    simp [phrase, hnone]
  · intro before cs
    have hspace : Text.isBlank ' ' := by decide
    cases before with
    | nil => simp [phrase, hspace]
    | cons c before => rfl
  · intro f c b _ rest before
    have hrest : ∀ w ∈ next :: words, afterWord? w.toList (d :: (ds ++ [' '] ++ rest)) = none := by
      intro w hw
      obtain ⟨more, hmore⟩ := List.head?_eq_some_iff.mp (hwords w hw)
      simp [hmore, afterWord?, htest]
    have hnonempty : ∀ w ∈ "is" :: next :: words, w.toList ≠ [] := by
      intro w hw hnil
      rcases List.mem_cons.mp hw with rfl | hw
      · cases hnil
      · have hhead := hwords w hw
        simp [hnil] at hhead
    have hphrase := afterPhrase?_blank hletters hnonempty hd hrest (c :: b)
    rw [List.cons_append] at hphrase
    simp only [phrase, List.cons_append, hphrase]
    cases afterPhrase? ("is" :: next :: words) (c :: b) with
    | none => rfl
    | some after =>
      have hlength : (c :: (b ++ ' ' :: d :: (ds ++ [' '] ++ rest))).length -
          (after ++ ' ' :: d :: (ds ++ [' '] ++ rest)).length = (c :: b).length - after.length := by
        simp only [List.length_cons, List.length_append]
        omega
      simp only [Option.map_some, hlength]

end Words

/-- A text whose literals, comments and parameters end in it: there are none, or the text is one
literal. -/
inductive Lexer.Closed : List Char → Prop where
  | quiet {text : List Char} (quiet : Words.Quiet text) : Closed text
  | single {body value : List Char} (spells : Quoted.Spells '\'' body value) :
    Closed ('\'' :: (body ++ ['\'']))
  | double {body value : List Char} (spells : Quoted.Spells '"' body value) :
    Closed ('"' :: (body ++ ['"']))

namespace Lexer
variable {text word : List Char}

def literalStages : List Rule := early.take 3

def nameStages : List Rule := early.drop 3

private theorem parts_of_mem_nameStages (h : Words.Divides word) :
    ∀ rule ∈ nameStages, ∀ text, rule.Parts (' ' :: (word ++ [' '])) text := by
  have hopen := Words.parts_single h.plain .openBracket (by simp) (by simp : '(' ∈ _)
  have hclose := Words.parts_single h.plain .closeBracket (by simp) (by simp : ')' ∈ _)
  have hnotNull := Words.parts_phrase h .isNotNull (by simp) "not" ["null"]
    (by decide) (by simp)
  have hnull := Words.parts_phrase h .isNull (by simp) "null" [] (by decide) (by simp)
  simp only [nameStages, early, cutting, List.take_succ_cons, List.drop_succ_cons, List.take_zero,
    List.drop_zero, List.forall_mem_cons]
  exact ⟨Words.parts_functionNames h.plain, hopen, hclose, hnotNull, hnull, by simp⟩

private theorem skips_of_mem_literalStages (h : Words.Quiet text) :
    ∀ rule ∈ literalStages, rule.Skips (text ++ [' ']) := by
  simp [literalStages, early, cutting, h.skips_quotes, h.skips_params, h.skips_commands]

private theorem idle_of_mem_literalStages (h : Words.Quiet text) (hne : text ≠ []) :
    ∀ rule ∈ literalStages, rule.split text = [⟨.unknown, text⟩] := by
  have hleave {rule : Rule} (hrule : ∀ f c b, text = f ++ c :: b →
      rule f.reverse (c :: (b ++ [])) = .leave 0) : rule.split text = [⟨.unknown, text⟩] := by
    refine Rule.split_of_leave_all hne ?_
    intro f c b htext
    have hb := hrule f c b htext
    rwa [List.append_nil] at hb
  have hquotes := hleave fun _ _ _ htext => h.leave_quotes htext (by simp) (by simp) _
  have hparams := hleave fun _ _ _ htext => h.leave_params htext (by simp) _
  have hcommands := hleave fun _ _ _ htext => h.leave_commands htext _
  simp [literalStages, early, cutting, hquotes, hparams, hcommands]

private theorem foldl_refine_glue {joint : List Char} {rules : List Rule}
    (h : ∀ rule ∈ rules, ∀ text, rule.Parts joint text) {ps qs : List Piece}
    (hps : ∀ p ∈ ps, p.chars ≠ []) (hqs : ∀ p ∈ qs, p.chars ≠ []) :
    rules.foldl (fun ps rule => refine rule.split ps) (glue ps (prepend joint qs)) =
      glue (rules.foldl (fun ps rule => refine rule.split ps) ps)
        (prepend joint (rules.foldl (fun ps rule => refine rule.split ps) qs)) := by
  induction rules generalizing ps qs with
  | nil => rfl
  | cons rule rules ih =>
    obtain ⟨hrule, hrules⟩ := List.forall_mem_cons.mp h
    have hleft : Covers (spell ps) ps := ⟨rfl, hps⟩
    have hright : Covers (spell qs) qs := ⟨rfl, hqs⟩
    simp only [List.foldl_cons]
    rw [Rule.refine_glue hrule hps hqs]
    exact ih hrules (hleft.refine rule.covers_split).nonempty
      (hright.refine rule.covers_split).nonempty

private theorem firstCut_eq_nameStages (cs : List Char) : firstCut cs = nameStages.foldl
    (fun ps rule => refine rule.split ps)
    (literalStages.foldl (fun ps rule => refine rule.split ps) (start cs)) := by
  rw [firstCut, ← List.foldl_append, literalStages, nameStages, List.take_append_drop]

private theorem literalStages_quiet (h : Words.Quiet text) :
    literalStages.foldl (fun ps rule => refine rule.split ps) (start text) = start text := by
  cases text with
  | nil => rfl
  | cons c cs =>
    have hidle := idle_of_mem_literalStages h (by simp)
    simp [literalStages, early, cutting] at hidle
    simp [literalStages, early, cutting, start, refine, hidle]

private theorem firstCut_glue_literal {p : Piece} (hp : p.kind ≠ .unknown)
    (hmark : ∀ rest, Literal.quotesAndComments.Marks p rest) (hword : Words.Divides word)
    (rest : List Char) : firstCut (p.chars ++ (' ' :: (word ++ [' ']) ++ rest)) =
      glue (firstCut p.chars) (prepend (' ' :: (word ++ [' '])) (firstCut rest)) := by
  have halone : firstCut p.chars = [p] := by
    have hsplit := (hmark []).split_eq
      (Words.Plain.forgets_of_eq Words.Plain.quotesAndComments_before p.chars)
    rw [List.append_nil] at hsplit
    rw [firstCut_eq, hsplit, foldl_refine_known hp]
    rfl
  rw [List.cons_append, firstCut_literal hp hmark,
    firstCut_words (by simp) (skips_of_mem_early hword.plain), prepend_prepend, halone,
    glue_known hp]
  rfl

private theorem firstCut_glue_quiet (htext : Words.Quiet text) (hword : Words.Divides word)
    (rest : List Char) : firstCut (text ++ (' ' :: (word ++ [' ']) ++ rest)) =
      glue (firstCut text) (prepend (' ' :: (word ++ [' '])) (firstCut rest)) := by
  have hskips : ∀ rule ∈ literalStages, rule.Skips (text ++ ' ' :: (word ++ [' '])) := by
    intro rule hrule
    have hblank := skips_of_mem_literalStages htext rule hrule
    have hjoint := hblank.append (skips_of_mem_early hword.plain rule (List.mem_of_mem_take hrule))
    rwa [List.append_assoc, List.singleton_append] at hjoint
  have hstart (qs : List Piece) : prepend (text ++ ' ' :: (word ++ [' '])) qs =
      glue (start text) (prepend (' ' :: (word ++ [' '])) qs) := by
    cases text with
    | nil => rfl
    | cons c cs => rw [start, if_neg (by simp), glue, if_pos rfl, prepend_prepend]
  have hcovers := (⟨rfl, nonempty_start rest⟩ : Covers _ (start rest)).foldl_refine literalStages
  rw [← List.append_assoc, firstCut_eq_nameStages, start_append (by simp),
    foldl_refine_prepend hskips (nonempty_start rest), hstart,
    foldl_refine_glue (parts_of_mem_nameStages hword) (nonempty_start text) hcovers.nonempty,
    ← firstCut_eq_nameStages, firstCut_eq_nameStages text, literalStages_quiet htext]

/-- The first stages work on the text before a word and on the text after it as if each stood
alone. -/
theorem firstCut_glue (htext : Closed text) (hword : Words.Divides word) (rest : List Char) :
    firstCut (text ++ (' ' :: (word ++ [' ']) ++ rest)) =
      glue (firstCut text) (prepend (' ' :: (word ++ [' '])) (firstCut rest)) := by
  cases htext with
  | quiet quiet => exact firstCut_glue_quiet quiet hword rest
  | @single body value spells =>
    have hmark := Spelling.marks '\'' .singleQuoted spells (by decide) fun _ _ => rfl
    exact firstCut_glue_literal (p := ⟨.singleQuoted, '\'' :: (body ++ ['\''])⟩) (by simp) hmark
      hword rest
  | @double body value spells =>
    have hmark := Spelling.marks '"' .doubleQuoted spells (by decide) fun _ _ => rfl
    exact firstCut_glue_literal (p := ⟨.doubleQuoted, '"' :: (body ++ ['"'])⟩) (by simp) hmark
      hword rest

/-- The bounds of a `between` are separated piece by piece. No kind is changed but that of an
`and`. -/
theorem exists_markBetween_cons (waiting : Bool) (p : Piece) :
    ∃ q next, (q.kind = p.kind ∨ p.kind = .logic .and ∧ q.kind = .betweenAnd) ∧
      ∀ ps, markBetween waiting (p :: ps) = q :: markBetween next ps := by
  by_cases hbetween : p.kind = .between
  · exact ⟨p, true, .inl rfl, fun ps => by simp only [markBetween, hbetween]⟩
  by_cases hand : p.kind = .logic .and
  · cases waiting with
    | true =>
      exact ⟨⟨.betweenAnd, p.chars⟩, false, .inr ⟨hand, rfl⟩, fun ps => by simp [markBetween, hand]⟩
    | false => exact ⟨p, false, .inl rfl, fun ps => by simp [markBetween, hand]⟩
  by_cases hends : p.kind = .pipe ∨ p.kind = .closeBracket
  · refine ⟨p, false, .inl rfl, fun ps => ?_⟩
    rcases hends with hends | hends <;> simp only [markBetween, hends]
  · refine ⟨p, waiting, .inl rfl, fun ps => ?_⟩
    rw [markBetween.eq_def]
    simp only
    split <;> simp_all

end Lexer

/-- The second pieces are the first with some neighbouring blanks taken together. -/
inductive Piece.Fused : List Piece → List Piece → Prop where
  | refl (ps : List Piece) : Fused ps ps
  | cons (p : Piece) {ps qs : List Piece} (rest : Fused ps qs) : Fused (p :: ps) (p :: qs)
  | join (cs ds : List Char) (ps : List Piece) :
    Fused (⟨.whitespace, cs⟩ :: ⟨.whitespace, ds⟩ :: ps) (⟨.whitespace, cs ++ ds⟩ :: ps)
  | trans {ps qs rs : List Piece} (first : Fused ps qs) (second : Fused qs rs) : Fused ps rs

namespace Piece.Fused
variable {ps qs : List Piece}

theorem append_left (h : Fused ps qs) (rs : List Piece) : Fused (rs ++ ps) (rs ++ qs) := by
  induction rs with
  | nil => exact h
  | cons r rs ih => exact .cons r ih

theorem append_right (h : Fused ps qs) (rs : List Piece) : Fused (ps ++ rs) (qs ++ rs) := by
  induction h with
  | refl ps => exact .refl _
  | cons p _ ih => exact .cons p ih
  | join cs ds ps => exact .join cs ds (ps ++ rs)
  | trans _ _ first second => exact first.trans second

theorem classify (h : Fused ps qs) (kindOf? : List Char → Option TokenKind) :
    Fused (Piece.classify kindOf? ps) (Piece.classify kindOf? qs) := by
  induction h with
  | refl ps => exact .refl _
  | cons p _ ih => exact .cons _ ih
  | join cs ds ps => exact .join cs ds _
  | trans _ _ first second => exact first.trans second

theorem polish (h : Fused ps qs) : Fused (Lexer.polish ps) (Lexer.polish qs) := by
  have hblank (cs : List Char) : Lexer.polish [⟨.whitespace, cs⟩] = [⟨.whitespace, cs⟩] :=
    Lexer.polish_known (by simp)
  induction h with
  | refl ps => exact .refl _
  | @cons p ps qs _ ih =>
    rw [Lexer.polish_cons p ps, Lexer.polish_cons p qs]
    exact ih.append_left _
  | join cs ds ps =>
    rw [Lexer.polish_cons, hblank, Lexer.polish_cons, hblank, Lexer.polish_cons, hblank]
    exact .join cs ds _
  | trans _ _ first second => exact first.trans second

theorem markBetween (h : Fused ps qs) (waiting : Bool) :
    Fused (Lexer.markBetween waiting ps) (Lexer.markBetween waiting qs) := by
  induction h generalizing waiting with
  | refl ps => exact .refl _
  | cons p _ ih =>
    obtain ⟨q, next, -, hq⟩ := Lexer.exists_markBetween_cons waiting p
    rw [hq, hq]
    exact .cons q (ih next)
  | join cs ds ps => exact .join cs ds _
  | trans _ _ first second => exact (first waiting).trans (second waiting)

/-- Blanks mean nothing to the structure, so the tokens that do are the same. -/
theorem meaningful_layout (h : Fused ps qs) (source : String) (start : Nat) :
    Token.meaningful (Lexer.layout source start ps) =
      Token.meaningful (Lexer.layout source start qs) := by
  induction h generalizing start with
  | refl ps => rfl
  | cons p _ ih => simp only [Lexer.layout, Token.meaningful, List.filter_cons] at ih ⊢; rw [ih]
  | join cs ds ps =>
    simp [Lexer.layout, Token.meaningful, TokenKind.isIgnorable, Text.byteLength_append,
      Nat.add_assoc]
  | trans _ _ first second => exact (first start).trans (second start)

end Piece.Fused

namespace Lexer

private theorem blanks_split_blank {run : List Char} (hne : run ≠ [])
    (h : ∀ c ∈ run, Text.isBlank c) {rest : List Char}
    (hrest : rest.head?.any Text.isBlank = false) :
    Words.blanks.split (run ++ rest) = ⟨.whitespace, run⟩ :: Words.blanks.split rest := by
  obtain ⟨c, cs, rfl⟩ := List.exists_cons_of_ne_nil hne
  obtain ⟨hc, hcs⟩ := List.forall_mem_cons.mp h
  have hends : rest.takeWhile Text.isBlank = [] ∧ rest.dropWhile Text.isBlank = rest := by
    cases rest with
    | nil => exact ⟨rfl, rfl⟩
    | cons d rest => simp_all
  rw [List.cons_append, blanks_split_cons hc, List.takeWhile_append_of_pos hcs,
    List.dropWhile_append_of_pos hcs, hends.1, hends.2, List.append_nil]

private theorem blanks_split_nonblank {run : List Char} (hne : run ≠ [])
    (h : ∀ c ∈ run, Text.isBlank c = false) {rest : List Char}
    (hrest : rest.head?.all Text.isBlank) :
    Words.blanks.split (run ++ rest) = ⟨.unknown, run⟩ :: Words.blanks.split rest := by
  cases rest with
  | nil =>
    rw [List.append_nil]
    refine Rule.split_of_leave_all hne ?_
    rintro front c back rfl
    simp [Words.blanks, h c (by simp)]
  | cons c rest => exact blanks_split_word hne h (by simpa using hrest) rest

/-- A text starts with a run of blanks or of other characters. -/
theorem exists_run (d : Char) (cs : List Char) :
    ∃ run rest, d :: cs = run ++ rest ∧ run ≠ [] ∧
      (∀ c ∈ run, Text.isBlank c = Text.isBlank d) ∧
      ∀ e, rest.head? = some e → Text.isBlank e = !Text.isBlank d := by
  refine ⟨(d :: cs).takeWhile (Text.isBlank · == Text.isBlank d),
    (d :: cs).dropWhile (Text.isBlank · == Text.isBlank d),
    List.takeWhile_append_dropWhile.symm, by simp, ?_, ?_⟩
  · intro c hc
    have hall := List.all_eq_true.mp (List.all_takeWhile (l := d :: cs)) c hc
    simpa using hall
  · intro e he
    have hnot := List.head?_dropWhile_not (Text.isBlank · == Text.isBlank d) (d :: cs)
    rw [he] at hnot
    cases hd : Text.isBlank d <;> simp_all

/-- Blanks are found on both sides of a blank as if each side stood alone. -/
theorem fused_blanks_split {c : Char} (hc : Text.isBlank c) (cs rest : List Char) :
    Fused (Words.blanks.split cs ++ Words.blanks.split (c :: rest))
      (Words.blanks.split (cs ++ c :: rest)) := by
  -- The text in front is a run of blanks or of other characters, and then a shorter text.
  induction hn : cs.length using Nat.strongRecOn generalizing cs with
  | ind n ih =>
    cases cs with
    | nil => exact .refl _
    | cons d cs =>
      obtain ⟨run, after, heq, hne, hrun, hafter⟩ := exists_run d cs
      have hlength := congrArg List.length heq
      rw [List.length_append] at hlength
      have hpos := List.length_pos_iff.mpr hne
      have hshort : after.length < n := by omega
      have hrest := ih after.length hshort after rfl
      rw [heq, List.append_assoc]
      cases hd : Text.isBlank d with
      | true =>
        rw [hd] at hrun
        cases after with
        | nil =>
          have hone : Words.blanks.split (run ++ []) = _ := blanks_split_blank hne hrun rfl
          obtain ⟨b, bs, rfl⟩ := List.exists_cons_of_ne_nil hne
          obtain ⟨hb, hbs⟩ := List.forall_mem_cons.mp hrun
          have hboth := blanks_split_cons hb (bs ++ c :: rest)
          rw [List.takeWhile_append_of_pos hbs, List.dropWhile_append_of_pos hbs,
            List.takeWhile_cons_of_pos hc, List.dropWhile_cons_of_pos hc] at hboth
          rw [hone, blanks_split_cons hc, List.nil_append]
          exact hboth ▸ .join (b :: bs) _ _
        | cons e es =>
          have he : Text.isBlank e = false := by simpa [hd] using hafter e rfl
          rw [blanks_split_blank hne hrun (by simpa using he),
            blanks_split_blank hne hrun (by simpa using he)]
          exact .cons _ hrest
      | false =>
        rw [hd] at hrun
        have hhead : after.head?.all Text.isBlank := by
          cases after with
          | nil => rfl
          | cons e es => simpa [hd] using hafter e rfl
        have hjoint : (after ++ c :: rest).head?.all Text.isBlank := by
          cases after with
          | nil => simpa using hc
          | cons e es => exact hhead
        rw [blanks_split_nonblank hne hrun hhead, blanks_split_nonblank hne hrun hjoint]
        exact .cons _ hrest

private theorem fused_blanks_prepend (ps : List Piece) :
    Fused (⟨.whitespace, [' ']⟩ :: refine Words.blanks.split ps)
      (refine Words.blanks.split (prepend [' '] ps)) := by
  have hspace : Text.isBlank ' ' := by decide
  have hone : Words.blanks.split [' '] = [⟨.whitespace, [' ']⟩] := blanks_split_cons hspace []
  cases ps with
  | nil =>
    rw [show prepend [' '] [] = [⟨.unknown, [' ']⟩] from rfl, refine_unknown, hone]
    exact .refl _
  | cons p ps =>
    obtain ⟨kind, cs⟩ := p
    by_cases hkind : kind = .unknown
    · subst hkind
      rw [prepend, refine_unknown, refine_unknown, List.singleton_append, blanks_split_cons hspace]
      cases cs with
      | nil => exact .refl _
      | cons c cs =>
        by_cases hc : Text.isBlank c
        · rw [blanks_split_cons hc, List.takeWhile_cons_of_pos hc, List.dropWhile_cons_of_pos hc]
          exact .join [' '] _ _
        · rw [List.takeWhile_cons_of_neg hc, List.dropWhile_cons_of_neg hc]
          exact .refl _
    · rw [prepend_cons hkind, refine_unknown, hone]
      exact .refl _

private theorem fused_blanks_glue (ps qs : List Piece) (cs : List Char) :
    Fused (refine Words.blanks.split ps ++ refine Words.blanks.split (prepend (' ' :: cs) qs))
      (refine Words.blanks.split (glue ps (prepend (' ' :: cs) qs))) := by
  have hspace : Text.isBlank ' ' := by decide
  induction ps with
  | nil => exact .refl _
  | cons p ps ih =>
    obtain ⟨kind, chars⟩ := p
    by_cases hkind : kind = .unknown
    · subst hkind
      cases ps with
      | nil =>
        obtain ⟨more, rest, hstart⟩ := exists_prepend (' ' :: cs) qs
        rw [glue, if_pos rfl, hstart, prepend, refine_unknown, refine_unknown, refine_unknown,
          refine, List.flatMap_nil, List.append_nil, ← List.append_assoc]
        exact (fused_blanks_split hspace chars (cs ++ more)).append_right _
      | cons q ps =>
        rw [glue, refine_unknown, refine_unknown, List.append_assoc]
        exact ih.append_left _
    · rw [glue_known hkind, refine_known hkind, refine_known hkind]
      exact .cons _ ih

/-- The later stages work on the pieces on both sides of a word as if each side stood alone. -/
theorem fused_polish_glue (hword : Words.Divides word) (ps qs : List Piece) :
    Fused (polish (refine Words.blanks.split ps) ++ ⟨.whitespace, [' ']⟩ ::
        (polish [⟨.unknown, word⟩] ++ ⟨.whitespace, [' ']⟩ ::
          polish (refine Words.blanks.split qs)))
      (polish (refine Words.blanks.split (glue ps (prepend (' ' :: (word ++ [' '])) qs)))) := by
  have hchars : ∀ c ∈ word, Text.isBlank c = false := fun c hc => (hword.plain.chars c hc).1
  have hblank : polish [⟨.whitespace, [' ']⟩] = [⟨.whitespace, [' ']⟩] := polish_known (by simp)
  have hafter : Fused
      (⟨.whitespace, [' ']⟩ :: ⟨.unknown, word⟩ :: ⟨.whitespace, [' ']⟩ ::
        refine Words.blanks.split qs)
      (refine Words.blanks.split (prepend (' ' :: (word ++ [' '])) qs)) := by
    have hspace := fused_blanks_prepend (prepend word (prepend [' '] qs))
    rw [refine_blanks_word hword.nonempty hchars, prepend_prepend, prepend_prepend] at hspace
    exact ((fused_blanks_prepend qs).cons _ |>.cons _).trans hspace
  have hall := ((hafter.append_left _).trans (fused_blanks_glue ps qs (word ++ [' ']))).polish
  rw [polish_append, polish_cons, hblank, polish_cons, polish_cons ⟨.whitespace, [' ']⟩, hblank,
    List.singleton_append, List.singleton_append] at hall
  exact hall

/-- The pieces of a text before the bounds of a `between` are separated. -/
def rough (cs : List Char) : List Piece := polish (refine Words.blanks.split (firstCut cs))

theorem pieces_eq_rough (cs : List Char) :
    pieces cs = classify (fun _ => some .word) (markBetween false (rough cs)) := pieces_eq cs

/-- The stages before the last work on the text before a word and on the text after it as if each
stood alone. -/
theorem fused_rough (htext : Closed text) (hword : Words.Divides word) (rest : List Char) :
    Fused (rough text ++ ⟨.whitespace, [' ']⟩ ::
        (polish [⟨.unknown, word⟩] ++ ⟨.whitespace, [' ']⟩ :: rough rest))
      (rough (text ++ (' ' :: (word ++ [' ']) ++ rest))) := by
  rw [rough, rough, rough, firstCut_glue htext hword]
  exact fused_polish_glue hword (firstCut text) (firstCut rest)

end Lexer

end PipeQuery
