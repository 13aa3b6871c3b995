import PipeQuery.Proofs.Token.Cutting

/-!
The tokens of a text that starts with words are those of the words, and then those of the rest. No
stage of the lexer finds anything in the words, and every stage works on the rest as if it stood
alone. Only the blank after the last word is taken together with blanks at the start of the rest.
-/
namespace PipeQuery

open Piece

namespace Piece

theorem prepend_append {ps : List Piece} (hne : ps ≠ []) (cs : List Char) (qs : List Piece) :
    prepend cs (ps ++ qs) = prepend cs ps ++ qs := by
  cases ps with
  | nil => exact absurd rfl hne
  | cons p ps =>
    obtain ⟨kind, chars⟩ := p
    cases kind <;> rfl

theorem prepend_cons {p : Piece} (hp : p.kind ≠ .unknown) (cs : List Char) (ps : List Piece) :
    prepend cs (p :: ps) = ⟨.unknown, cs⟩ :: p :: ps :=
  @prepend_append_of_kind p [] ps hp cs

theorem exists_prepend (cs : List Char) (ps : List Piece) :
    ∃ more rest, prepend cs ps = ⟨.unknown, cs ++ more⟩ :: rest := by
  cases ps with
  | nil => exact ⟨[], [], by simp [prepend]⟩
  | cons p ps =>
    obtain ⟨kind, chars⟩ := p
    by_cases hkind : kind = .unknown
    · subst hkind
      exact ⟨chars, ps, rfl⟩
    · exact ⟨[], ⟨kind, chars⟩ :: ps, by rw [prepend_cons hkind, List.append_nil]⟩

theorem refine_unknown (split : List Char → List Piece) (cs : List Char) (ps : List Piece) :
    refine split (⟨.unknown, cs⟩ :: ps) = split cs ++ refine split ps := by
  simp [refine]

theorem refine_known {p : Piece} (hp : p.kind ≠ .unknown) (split : List Char → List Piece)
    (ps : List Piece) : refine split (p :: ps) = p :: refine split ps := by
  simp [refine, hp]

end Piece

namespace Rule
variable {rule : Rule} {front : List Char}

theorem split_ne_nil {cs : List Char} (h : cs ≠ []) : rule.split cs ≠ [] := by
  intro hnil
  have hspell := (rule.covers_split cs).spells
  rw [hnil] at hspell
  exact h hspell.symm

/-- The rule leaves the front part of a text alone, and makes of the rest what it makes of it
alone. -/
def Skips (rule : Rule) (front : List Char) : Prop :=
  ∀ rest, rule.split (front ++ rest) = prepend front (rule.split rest)

theorem Skips.append {back : List Char} (hf : rule.Skips front) (hb : rule.Skips back) :
    rule.Skips (front ++ back) := by
  intro rest
  rw [List.append_assoc, hf, hb, prepend_prepend]

theorem Skips.refine_prepend (h : rule.Skips front) {ps : List Piece}
    (hps : ∀ p ∈ ps, p.chars ≠ []) :
    refine rule.split (prepend front ps) = prepend front (refine rule.split ps) := by
  have halone : rule.split front = [⟨.unknown, front⟩] := by
    have hfront := h []
    rw [List.append_nil] at hfront
    exact hfront
  cases ps with
  | nil => simpa [refine, prepend] using halone
  | cons p ps =>
    obtain ⟨kind, chars⟩ := p
    by_cases hkind : kind = .unknown
    · subst hkind
      have hne : rule.split chars ≠ [] := split_ne_nil (hps _ List.mem_cons_self)
      rw [prepend, refine_unknown, refine_unknown, h, prepend_append hne]
    · rw [prepend_cons hkind, refine_unknown, refine_known hkind, prepend_cons hkind, halone]
      rfl

def Forgets (rule : Rule) (front : List Char) : Prop :=
  ∀ before cs, rule (before ++ front.reverse) cs = rule before cs

theorem Forgets.scan_eq (h : rule.Forgets front) (skip : Nat) (before cs : List Char) :
    rule.scan skip (before ++ front.reverse) cs = rule.scan skip before cs := by
  induction cs generalizing skip before with
  | nil => cases skip <;> rfl
  | cons c cs ih =>
    cases skip with
    | zero =>
      rw [scan, scan, h]
      split
      next more _ => exact congrArg (prepend _) (ih more (c :: before))
      next kind more _ => exact congrArg (_ :: ·) (ih more (c :: before))
    | succ skip => exact ih skip (c :: before)

private theorem skips_of_passes (hpass : ∀ rest, rule.Passes front rest)
    (hforgets : rule.Forgets front) : rule.Skips front := by
  intro rest
  have hforget := hforgets.scan_eq 0 [] rest
  rw [split, split, ← hforget, hpass, List.append_nil, List.nil_append]

/-- A lexeme at the start of a text is marked, and the rest is split as if it stood alone. -/
theorem Marks.split_eq {p : Piece} {rest : List Char} (h : rule.Marks p rest)
    (hforgets : rule.Forgets p.chars) : rule.split (p.chars ++ rest) = p :: rule.split rest := by
  have hforget := hforgets.scan_eq 0 [] rest
  rw [split, split, ← hforget, h.scan_eq, List.append_nil, List.nil_append]

/-- A rule that leaves each character of the front part, with what stands before it there, skips the
front part. -/
theorem skips_of_leave (hne : front ≠ []) (hforgets : rule.Forgets front)
    (h : ∀ f c b, front = f ++ c :: b →
      ∀ rest, rule f.reverse (c :: (b ++ rest)) = .leave 0) : rule.Skips front := by
  intro rest
  have hscan (back : List Char) : ∀ f, front = f ++ back → back ≠ [] →
      rule.scan 0 f.reverse (back ++ rest) =
        prepend back (rule.scan 0 front.reverse rest) := by
    induction back with
    | nil =>
      intro f _ hback
      exact absurd rfl hback
    | cons c back ih =>
      intro f heq _
      rw [List.cons_append, scan, h f c back heq rest]
      simp only [List.take_zero]
      cases back with
      | nil =>
        subst heq
        simp
      | cons d back =>
        have hrest := ih (f ++ [c]) (by simp [heq]) (by simp)
        rw [List.reverse_append] at hrest
        rw [show c :: f.reverse = [c].reverse ++ f.reverse from rfl, hrest, prepend_prepend]
        rfl
  have hforget := hforgets.scan_eq 0 [] rest
  rw [split, split, ← hforget]
  exact hscan front [] rfl hne

end Rule

namespace Words

/-- A text in which no literal, comment, parameter or pipe starts. -/
structure Quiet (text : List Char) : Prop where
  quotes : '"' ∉ text ∧ '\'' ∉ text
  comment : ¬['/', '/'] <:+: text
  block : ¬['/', '*'] <:+: text
  param : ¬['$', '\x7b'] <:+: text
  pipe : '|' ∉ text

/-- A word in which the first stages of the lexer find nothing, also when a blank and more text
follow it. -/
structure Plain (word : List Char) : Prop where
  chars : ∀ c ∈ word, Text.isBlank c = false ∧ c ∉ ['"', '\'', '(', ')', '|']
  comment : ¬['/', '/'] <:+: word
  block : ¬['/', '*'] <:+: word
  param : ¬['$', '\x7b'] <:+: word
  /-- The word starts no test for null. -/
  test : afterWord? "is".toList word ≠ some []

namespace Plain
variable {word : List Char} {rule : Rule}

/-- The character after one in the word, or the first after the word, does not go with it. -/
theorem head_ne {x y : Char} (h : ¬[x, y] <:+: word) {f b rest : List Char}
    (hword : word = f ++ x :: b) (hrest : rest.head? ≠ some y) : (b ++ rest).head? ≠ some y := by
  cases b with
  | nil => exact hrest
  | cons d b =>
    rintro ⟨⟩
    exact h ⟨f, b, by simp [hword]⟩

/-- Rules that leave the characters of the word and the blank after it. -/
theorem skips_of_leave (hforgets : rule.Forgets (word ++ [' ']))
    (hword : ∀ f c b, word = f ++ c :: b →
      ∀ rest, rule f.reverse (c :: (b ++ ' ' :: rest)) = .leave 0)
    (hblank : ∀ rest, rule word.reverse (' ' :: rest) = .leave 0) :
    rule.Skips (word ++ [' ']) := by
  refine Rule.skips_of_leave (by simp) hforgets ?_
  intro f c b heq rest
  rcases List.eq_nil_or_concat b with rfl | ⟨b, d, rfl⟩
  · obtain ⟨rfl, hc⟩ := List.append_inj' heq rfl
    cases hc
    exact hblank rest
  · rw [List.concat_eq_append, ← List.cons_append, ← List.append_assoc] at heq
    obtain ⟨hfront, hd⟩ := List.append_inj' heq rfl
    cases hd
    simpa using hword f c b hfront rest

theorem forgets_of_eq (h : ∀ before cs, rule before cs = rule [] cs) (front : List Char) :
    rule.Forgets front := by
  intro before cs
  rw [h (before ++ front.reverse), h before]

theorem ne_of_mem (h : Plain word) {c d : Char} (hc : c ∈ word)
    (hd : d ∈ ['"', '\'', '(', ')', '|']) : c ≠ d := by
  rintro rfl
  exact (h.chars c hc).2 hd

theorem quotesAndComments_before (before cs : List Char) :
    Literal.quotesAndComments before cs = Literal.quotesAndComments [] cs := by
  unfold Literal.quotesAndComments
  split <;> rfl

theorem params_leave {c : Char} {cs : List Char} (h : c = '$' → cs.head? ≠ some '\x7b')
    (before : List Char) : Literal.params before (c :: cs) = .leave 0 := by
  unfold Literal.params
  split <;> simp_all

private theorem params_before (before cs : List Char) :
    Literal.params before cs = Literal.params [] cs := by
  unfold Literal.params
  split <;> rfl

theorem quiet (h : Plain word) : Quiet word where
  quotes := ⟨fun hc => h.ne_of_mem hc (by simp) rfl, fun hc => h.ne_of_mem hc (by simp) rfl⟩
  comment := h.comment
  block := h.block
  param := h.param
  pipe := fun hc => h.ne_of_mem hc (by simp) rfl

end Plain

namespace Quiet
open Plain
variable {text : List Char}

theorem leave_quotes (h : Quiet text) {f b rest : List Char} {c : Char} (htext : text = f ++ c :: b)
    (hcomment : rest.head? ≠ some '/') (hblock : rest.head? ≠ some '*') (before : List Char) :
    Literal.quotesAndComments before (c :: (b ++ rest)) = .leave 0 := by
  have hc : c ∈ text := by simp [htext]
  have hdouble : c ≠ '"' := fun heq => h.quotes.1 (heq ▸ hc)
  have hsingle : c ≠ '\'' := fun heq => h.quotes.2 (heq ▸ hc)
  refine Literal.quotesAndComments_leave hdouble hsingle ?_ before
  rintro rfl
  exact ⟨head_ne h.comment htext hcomment, head_ne h.block htext hblock⟩

theorem leave_params (h : Quiet text) {f b rest : List Char} {c : Char} (htext : text = f ++ c :: b)
    (hparam : rest.head? ≠ some '\x7b') (before : List Char) :
    Literal.params before (c :: (b ++ rest)) = .leave 0 := by
  refine params_leave ?_ before
  rintro rfl
  exact head_ne h.param htext hparam

theorem skips_quotes (h : Quiet text) : Literal.quotesAndComments.Skips (text ++ [' ']) := by
  refine skips_of_leave (forgets_of_eq quotesAndComments_before _) ?_ ?_
  · intro f c b htext rest
    exact h.leave_quotes htext (by simp) (by simp) _
  · intro rest
    exact Literal.quotesAndComments_leave (by decide) (by decide) (by simp) _

theorem skips_params (h : Quiet text) : Literal.params.Skips (text ++ [' ']) := by
  refine skips_of_leave (forgets_of_eq params_before _) ?_ ?_
  · intro f c b htext rest
    exact h.leave_params htext (by simp) _
  · intro rest
    exact params_leave (by simp) _

/-- No pipe stands in the text. -/
theorem head_dropWhile_ne (h : Quiet text) {part : List Char} (hpart : ∀ c ∈ part, c ∈ text) :
    (part.dropWhile Text.isBlank).head? ≠ some '|' := by
  intro hhead
  have hmem := (List.dropWhile_suffix Text.isBlank).subset (List.mem_of_mem_head? hhead)
  exact h.pipe (hpart _ hmem)

private theorem forgets_commands (h : Quiet text) : commands.Forgets (text ++ [' ']) := by
  intro before cs
  -- Looking back from the blanks before a name ends at the text, not at a pipe.
  have hhead : (((before ++ (text ++ [' ']).reverse).dropWhile Text.isBlank).head? == some '|') =
      ((before.dropWhile Text.isBlank).head? == some '|') := by
    have hblank : Text.isBlank ' ' := by decide
    have htext : (text.reverse.dropWhile Text.isBlank).head? ≠ some '|' :=
      h.head_dropWhile_ne (by simp)
    rw [List.dropWhile_append]
    cases before.dropWhile Text.isBlank with
    | nil => simpa [hblank] using htext
    | cons c rest => simp
  cases cs with
  | nil => rfl
  | cons c cs => simp only [commands, hhead]

theorem leave_commands (h : Quiet text) {f b : List Char} {c : Char} (htext : text = f ++ c :: b)
    (rest : List Char) : commands f.reverse (c :: rest) = .leave 0 := by
  have hf : ∀ d ∈ f.reverse, d ∈ text := by simp +contextual [htext]
  simp [commands, h.head_dropWhile_ne hf]

theorem skips_commands (h : Quiet text) : commands.Skips (text ++ [' ']) := by
  refine skips_of_leave h.forgets_commands ?_ ?_
  · intro f c b htext rest
    exact h.leave_commands htext _
  · intro rest
    simp [commands, show Text.isIdentifierStart ' ' = false by decide]

end Quiet

namespace Plain
variable {word : List Char} {rule : Rule}

theorem skips_single (h : Plain word) (kind : TokenKind) {d : Char}
    (hd : d ∈ ['"', '\'', '(', ')', '|']) : (Rule.single kind (· == d)).Skips (word ++ [' ']) := by
  refine skips_of_leave (forgets_of_eq (fun _ cs => by cases cs <;> rfl) _) ?_ ?_
  · intro f c b hword rest
    have hne := h.ne_of_mem (by simp [hword] : c ∈ word) hd
    simp [Rule.single, hne]
  · intro rest
    have hne : ' ' ≠ d := by
      rintro rfl
      simp at hd
    simp [Rule.single, hne]

theorem skips_functionNames (h : Plain word) : functionNames.Skips (word ++ [' ']) := by
  refine Rule.skips_of_passes ?_ (forgets_of_eq (fun _ cs => by cases cs <;> rfl) _)
  intro rest
  have hblank : functionNames.Passes [' '] rest :=
    passes_of_not_isIdentifierStart (by simp) (by decide)
  cases word with
  | nil => exact hblank
  | cons c word =>
    refine Rule.Passes.append (passes_functionNames (by simp) ?_ ?_) hblank
    · intro hopen
      exact h.ne_of_mem hopen (by simp) rfl
    · rintro _ ⟨⟩
      decide

/-- Nothing but the word `is` can start a test, with a blank after it. -/
theorem afterPhrase?_eq_none (h : Plain word) (next : String) (words : List String)
    (rest : List Char) : afterPhrase? ("is" :: next :: words) (word ++ ' ' :: rest) = none := by
  have hphrase (cs : List Char) (hcs : ∀ after, afterWord? ['i', 's'] cs = some after →
      after.head?.any Text.isBlank = false) : afterPhrase? ("is" :: next :: words) cs = none := by
    cases hword : afterWord? ['i', 's'] cs with
    | none => simp [afterPhrase?, hword]
    | some after => simp [afterPhrase?, hword, afterBlanks?, hcs after hword]
  refine hphrase _ ?_
  have hi : Text.sameLetter 'i' ' ' = false := by decide
  have hs : Text.sameLetter 's' ' ' = false := by decide
  have htest : afterWord? ['i', 's'] word ≠ some [] := h.test
  have hchars := h.chars
  cases word with
  | nil => simp [afterWord?, hi]
  | cons c word =>
    by_cases hc : Text.sameLetter 'i' c
    · cases word with
      | nil => simp [afterWord?, hs]
      | cons d word =>
        by_cases hd : Text.sameLetter 's' d
        · cases word with
          | nil => simp [afterWord?, hc, hd] at htest
          | cons e word =>
            have he : Text.isBlank e = false := (hchars e (by simp)).1
            simp [afterWord?, hc, hd, he]
        · simp [afterWord?, hc, hd]
    · simp [afterWord?, hc]

theorem skips_phrase (h : Plain word) (kind : TokenKind) (next : String) (words : List String) :
    (phrase kind ("is" :: next :: words)).Skips (word ++ [' ']) := by
  refine skips_of_leave ?_ ?_ ?_
  · intro before cs
    have hblank : Text.isBlank ' ' := by decide
    cases before with
    | nil => simp [phrase, hblank]
    | cons c before => rfl
  · intro f c b hword rest
    rcases List.eq_nil_or_concat f with rfl | ⟨f, d, rfl⟩
    · have hphrase := h.afterPhrase?_eq_none next words rest
      rw [hword, List.nil_append, List.cons_append] at hphrase
      simp [phrase, hphrase]
    · have hd : Text.isBlank d = false := (h.chars d (by simp [hword])).1
      simp [phrase, hd]
  · intro rest
    rcases List.eq_nil_or_concat word with rfl | ⟨f, d, rfl⟩
    · have hphrase := h.afterPhrase?_eq_none next words rest
      rw [List.nil_append] at hphrase
      simp [phrase, hphrase]
    · have hd : Text.isBlank d = false := (h.chars d (by simp)).1
      simp [phrase, hd]

end Plain

end Words

namespace Lexer

def start (cs : List Char) : List Piece := if cs.isEmpty then [] else [⟨.unknown, cs⟩]

def early : List Rule := cutting.take 8

/-- The stages after blanks are cut off. They work on each piece alone. -/
def late : List (List Piece → List Piece) :=
  [refine (Rule.single .pipe (· == '|')).split, refine (Rule.single .comma (· == ',')).split] ++
    naming.map classify ++ [refine Words.relations.split, classify remaining]

def firstCut (cs : List Char) : List Piece :=
  early.foldl (fun ps rule => refine rule.split ps) (start cs)

def polish (ps : List Piece) : List Piece := late.foldl (fun ps stage => stage ps) ps

/-- The last stages: the bounds of a `between` are separated, and what is left is a word. -/
def finish (ps : List Piece) : List Piece :=
  classify (fun _ => some .word) (markBetween false (polish ps))

theorem pieces_eq (cs : List Char) :
    pieces cs = finish (refine Words.blanks.split (firstCut cs)) := by
  have hcutting : cutting = early ++ [Words.blanks, .single .pipe (· == '|'),
    .single .comma (· == ',')] := rfl
  simp only [pieces, hcutting, finish, firstCut, start, polish, late, List.foldl_append,
    List.foldl_cons, List.foldl_nil, List.foldl_map]

theorem nonempty_start (cs : List Char) : ∀ p ∈ start cs, p.chars ≠ [] := by
  cases cs with
  | nil => simp [start]
  | cons c cs => simp [start]

theorem start_append {front : List Char} (hne : front ≠ []) (cs : List Char) :
    start (front ++ cs) = prepend front (start cs) := by
  cases cs with
  | nil => simp [start, prepend, hne]
  | cons c cs => simp [start, prepend]

theorem skips_of_mem_early {word : List Char} (h : Words.Plain word) :
    ∀ rule ∈ early, rule.Skips (word ++ [' ']) := by
  have hopen := h.skips_single .openBracket (by simp : '(' ∈ _)
  have hclose := h.skips_single .closeBracket (by simp : ')' ∈ _)
  simp [early, cutting, h.quiet.skips_quotes, h.quiet.skips_params, h.quiet.skips_commands,
    h.skips_functionNames, hopen, hclose, h.skips_phrase]

theorem foldl_refine_prepend {front : List Char} {rules : List Rule}
    (h : ∀ rule ∈ rules, rule.Skips front) {ps : List Piece} (hps : ∀ p ∈ ps, p.chars ≠ []) :
    rules.foldl (fun ps rule => refine rule.split ps) (prepend front ps) =
      prepend front (rules.foldl (fun ps rule => refine rule.split ps) ps) := by
  induction rules generalizing ps with
  | nil => rfl
  | cons rule rules ih =>
    obtain ⟨hrule, hrules⟩ := List.forall_mem_cons.mp h
    have hcovers : Covers (spell ps) ps := ⟨rfl, hps⟩
    rw [List.foldl_cons, List.foldl_cons, hrule.refine_prepend hps]
    exact ih hrules (hcovers.refine rule.covers_split).nonempty

/-- Words with a blank after each stay in front of what the first stages make of the rest. -/
theorem firstCut_words {front : List Char} (hne : front ≠ [])
    (h : ∀ rule ∈ early, rule.Skips front) (cs : List Char) :
    firstCut (front ++ cs) = prepend front (firstCut cs) := by
  rw [firstCut, start_append hne, foldl_refine_prepend h (nonempty_start cs)]
  rfl

private theorem forgets_blanks (front : List Char) : Words.blanks.Forgets front :=
  Words.Plain.forgets_of_eq (fun _ cs => by cases cs <;> rfl) front

theorem blanks_split_cons {c : Char} (hc : Text.isBlank c) (cs : List Char) :
    Words.blanks.split (c :: cs) =
      ⟨.whitespace, c :: cs.takeWhile Text.isBlank⟩ ::
        Words.blanks.split (cs.dropWhile Text.isBlank) := by
  have hmark : Words.blanks.Marks ⟨.whitespace, c :: cs.takeWhile Text.isBlank⟩
      (cs.dropWhile Text.isBlank) := by
    refine ⟨by simp, fun before => ?_⟩
    simp [Words.blanks, hc]
  have hsplit := hmark.split_eq (forgets_blanks _)
  rwa [List.cons_append, List.takeWhile_append_dropWhile] at hsplit

theorem blanks_split_word {word : List Char} (hne : word ≠ [])
    (h : ∀ c ∈ word, Text.isBlank c = false) {c : Char} (hc : Text.isBlank c) (cs : List Char) :
    Words.blanks.split (word ++ c :: cs) = ⟨.unknown, word⟩ :: Words.blanks.split (c :: cs) := by
  have hpass (rest : List Char) : Words.blanks.Passes word rest := by
    refine Rule.passes_of_forall hne ?_
    intro d hd before back
    simp [Words.blanks, h d hd]
  rw [Rule.skips_of_passes hpass (forgets_blanks word), blanks_split_cons hc,
    prepend_cons (by simp)]

def leading : List Piece → List Char
  | [] => []
  | p :: _ => if p.kind = .unknown then p.chars.takeWhile Text.isBlank else []

def dropLeading : List Piece → List Piece
  | [] => []
  | p :: ps =>
    if p.kind = .unknown then ⟨.unknown, p.chars.dropWhile Text.isBlank⟩ :: ps else p :: ps

/-- A blank before unclassified text is taken together with the blanks that start it. -/
theorem refine_blanks_space (ps : List Piece) :
    refine Words.blanks.split (prepend [' '] ps) =
      ⟨.whitespace, ' ' :: leading ps⟩ :: refine Words.blanks.split (dropLeading ps) := by
  have hblank : Text.isBlank ' ' := by decide
  have halone : Words.blanks.split [' '] = [⟨.whitespace, [' ']⟩] := blanks_split_cons hblank []
  cases ps with
  | nil => exact halone
  | cons p ps =>
    obtain ⟨kind, cs⟩ := p
    by_cases hkind : kind = .unknown
    · subst hkind
      rw [prepend, refine_unknown, List.singleton_append, blanks_split_cons hblank, leading,
        dropLeading, if_pos rfl, if_pos rfl, refine_unknown, List.cons_append]
    · rw [prepend_cons hkind, refine_unknown, halone, leading, dropLeading, if_neg hkind,
        if_neg hkind]
      rfl

theorem refine_blanks_leading (ps : List Piece) :
    ∃ blanks, (∀ p ∈ blanks, p.kind = .whitespace) ∧
      refine Words.blanks.split ps = blanks ++ refine Words.blanks.split (dropLeading ps) := by
  cases ps with
  | nil => exact ⟨[], by simp, rfl⟩
  | cons p ps =>
    obtain ⟨kind, cs⟩ := p
    by_cases hkind : kind = .unknown
    · subst hkind
      rw [dropLeading, if_pos rfl, refine_unknown, refine_unknown]
      cases cs with
      | nil => exact ⟨[], by simp, rfl⟩
      | cons c cs =>
        by_cases hc : Text.isBlank c
        · refine ⟨[⟨.whitespace, c :: cs.takeWhile Text.isBlank⟩], by simp, ?_⟩
          rw [blanks_split_cons hc, List.dropWhile_cons_of_pos hc]
          rfl
        · refine ⟨[], by simp, ?_⟩
          rw [List.dropWhile_cons_of_neg hc]
          rfl
    · exact ⟨[], by simp, by rw [dropLeading, if_neg hkind]; rfl⟩

/-- A word before a blank is cut off. -/
theorem refine_blanks_word {word : List Char} (hne : word ≠ [])
    (h : ∀ c ∈ word, Text.isBlank c = false) (ps : List Piece) :
    refine Words.blanks.split (prepend word (prepend [' '] ps)) =
      ⟨.unknown, word⟩ :: refine Words.blanks.split (prepend [' '] ps) := by
  obtain ⟨cs, rest, hstart⟩ := exists_prepend [' '] ps
  rw [List.singleton_append] at hstart
  rw [hstart, prepend, refine_unknown, refine_unknown, blanks_split_word hne h (by decide)]
  rfl

/-- A word has no blanks in front. -/
theorem leading_word {word : List Char} (hne : word ≠ []) (h : ∀ c ∈ word, Text.isBlank c = false)
    (ps : List Piece) :
    leading (prepend word ps) = [] ∧ dropLeading (prepend word ps) = prepend word ps := by
  obtain ⟨more, rest, heq⟩ := exists_prepend word ps
  obtain ⟨c, cs, rfl⟩ := List.exists_cons_of_ne_nil hne
  have hc : Text.isBlank c = false := h c (by simp)
  rw [heq]
  simp [leading, dropLeading, hc]

private theorem known_of_mem_late {p : Piece} (hp : p.kind ≠ .unknown) :
    ∀ stage ∈ late, stage [p] = [p] := by
  simp [late, naming, refine, classify, hp]

theorem polish_append (ps qs : List Piece) : polish (ps ++ qs) = polish ps ++ polish qs := by
  simp [polish, late, naming, refine_append, classify]

theorem polish_cons (p : Piece) (ps : List Piece) : polish (p :: ps) = polish [p] ++ polish ps :=
  polish_append [p] ps

/-- What no late stage changes is not changed by all of them. -/
theorem polish_of_idle {ps : List Piece} (h : ∀ stage ∈ late, stage ps = ps) : polish ps = ps := by
  have hfold (stages : List (List Piece → List Piece)) (h : ∀ stage ∈ stages, stage ps = ps) :
      stages.foldl (fun ps stage => stage ps) ps = ps := by
    induction stages with
    | nil => rfl
    | cons stage stages ih =>
      obtain ⟨hstage, hstages⟩ := List.forall_mem_cons.mp h
      rw [List.foldl_cons, hstage, ih hstages]
  exact hfold late h

theorem polish_known {ps : List Piece} (h : ∀ p ∈ ps, p.kind ≠ .unknown) : polish ps = ps := by
  induction ps with
  | nil => exact polish_of_idle (by simp [late, naming, refine, classify])
  | cons p ps ih =>
    obtain ⟨hp, hps⟩ := List.forall_mem_cons.mp h
    rw [polish_cons, ih hps, polish_of_idle (known_of_mem_late hp)]
    rfl

/-- Pieces of other kinds make no difference to where the bounds of a `between` are separated. -/
theorem markBetween_append {ps : List Piece}
    (h : ∀ p ∈ ps, p.kind ∉ [.between, .logic .and, .pipe, .closeBracket]) (waiting : Bool)
    (qs : List Piece) : markBetween waiting (ps ++ qs) = ps ++ markBetween waiting qs := by
  induction ps with
  | nil => rfl
  | cons p ps ih =>
    obtain ⟨hp, hps⟩ := List.forall_mem_cons.mp h
    rw [List.cons_append, markBetween.eq_def]
    simp only [ih hps]
    split <;> simp_all

/-- The last stages leave pieces in front alone, and treat the others as if they stood alone. -/
theorem finish_append {front polished : List Piece} (hpolish : polish front = polished)
    (hkinds : ∀ p ∈ polished, p.kind ∉ [.between, .logic .and, .pipe, .closeBracket])
    (ps : List Piece) :
    finish (front ++ ps) = classify (fun _ => some .word) polished ++ finish ps := by
  rw [finish, polish_append, hpolish, markBetween_append hkinds, classify, List.map_append]
  rfl

theorem finish_blanks {blanks : List Piece} (h : ∀ p ∈ blanks, p.kind = .whitespace)
    (ps : List Piece) : finish (blanks ++ ps) = blanks ++ finish ps := by
  have hpolish : polish blanks = blanks := polish_known fun p hp => by simp [h p hp]
  have hclassify : classify (fun _ => some .word) blanks = blanks := by
    rw [classify, List.map_congr_left fun p hp => if_neg (by simp [h p hp]), List.map_id']
  rw [finish_append hpolish fun p hp => by simp [h p hp], hclassify]

end Lexer

end PipeQuery
