import PipeQuery.Proofs.Text.Case
import PipeQuery.Proofs.Token.Relations

/-!
The case of letters in queries. What the cutting stages of the lexer and the keywords find in a text
in lower case is what they find in the text itself, in lower case. The later stages look at the case
of letters, but only in text that is no keyword. So the words of the language may be written in
either case.
-/
namespace PipeQuery

open Piece
open Text (lowercase Caseless caseless_marks)

private theorem Words.keyword?_lowercase (cs : List Char) :
    keyword? (lowercase cs) = keyword? cs := by
  simp only [keyword?, Text.sameIgnoringCaseChars_lowercase]

def Rule.Caseless (rule : Rule) : Prop :=
  ∀ before cs, rule (lowercase before) (lowercase cs) = rule before cs

private theorem Quoted.tailLength_lowercase {quote : Char} (hquote : Caseless (· == quote))
    (cs : List Char) : tailLength quote (lowercase cs) = tailLength quote cs := by
  have hbackslash : Caseless (· == '\\') := caseless_marks _ (by decide)
  have hcons {c : Char} {ds : List Char} (hone : c = '\\' → ds = [] → False)
      (hmore : ∀ e es, c = '\\' → ds = e :: es → False) :
      tailLength quote (lowercase (c :: ds)) =
        if c = quote then 1 else 1 + tailLength quote (lowercase ds) := by
    have hc : c.toLower ≠ '\\' := by
      rw [Ne, hbackslash.toLower_eq_iff]
      exact ne_backslash hone hmore
    rw [Text.lowercase_cons, tailLength_cons _ hc]
    simp only [hquote.toLower_eq_iff]
  fun_induction tailLength quote cs with
  | case1 => rfl
  | case2 => rfl
  | case3 c cs ih =>
    rw [← ih]
    exact tailLength.eq_3 quote c.toLower (lowercase cs)
  | case4 cs hone hmore => rw [hcons hone hmore, if_pos rfl]
  | case5 c cs hone hmore hc ih => rw [hcons hone hmore, if_neg hc, ih]

namespace Literal

private theorem blockTail_lowercase (cs : List Char) : blockTail (lowercase cs) = blockTail cs := by
  have hstar : Caseless (· == '*') := caseless_marks _ (by decide)
  have hslash : Caseless (· == '/') := caseless_marks _ (by decide)
  fun_induction blockTail cs with
  | case1 => rfl
  | case2 cs => rfl
  | case3 c cs hnot ih =>
    rw [Text.lowercase_cons, blockTail_cons, ih]
    intro hc hhead
    rw [hstar.toLower_eq_iff] at hc
    cases cs with
    | nil => cases hhead
    | cons d ds =>
      have hd : d.toLower = '/' := Option.some.inj hhead
      rw [hslash.toLower_eq_iff] at hd
      exact hnot ds hc (by rw [hd])

private theorem caseless_quotes : quotesAndComments.Caseless := by
  intro before cs
  have hdouble : Caseless (· == '"') := caseless_marks _ (by decide)
  have hsingle : Caseless (· == '\'') := caseless_marks _ (by decide)
  have hslash : Caseless (· == '/') := caseless_marks _ (by decide)
  have hstar : Caseless (· == '*') := caseless_marks _ (by decide)
  have hline : Caseless (· != '\n') := (caseless_marks _ (by decide)).bne
  fun_cases quotesAndComments before cs with
  | case1 _ cs => exact congrArg (Cut.mark .doubleQuoted) (Quoted.tailLength_lowercase hdouble cs)
  | case2 _ cs => exact congrArg (Cut.mark .singleQuoted) (Quoted.tailLength_lowercase hsingle cs)
  | case3 _ cs =>
    have hlength : ((lowercase cs).takeWhile (· != '\n')).length =
        (cs.takeWhile (· != '\n')).length := by
      rw [hline.takeWhile_lowercase, Text.length_lowercase]
    exact congrArg (fun n => Cut.mark .comment (1 + n)) hlength
  | case4 _ cs => exact congrArg (fun n => Cut.mark .blockComment (1 + n)) (blockTail_lowercase cs)
  | case5 _ cs hnd hns hnc hnb =>
    cases cs with
    | nil => rfl
    | cons c cs =>
      refine quotesAndComments_leave ?_ ?_ ?_ _
      · rw [Ne, hdouble.toLower_eq_iff]
        rintro rfl
        exact hnd cs rfl
      · rw [Ne, hsingle.toLower_eq_iff]
        rintro rfl
        exact hns cs rfl
      · rw [hslash.toLower_eq_iff]
        rintro rfl
        refine ⟨hslash.head_lowercase_ne ?_, hstar.head_lowercase_ne ?_⟩
        · intro hhead
          obtain ⟨cs, rfl⟩ := List.head?_eq_some_iff.mp hhead
          exact hnc cs rfl
        · intro hhead
          obtain ⟨cs, rfl⟩ := List.head?_eq_some_iff.mp hhead
          exact hnb cs rfl

private theorem caseless_params : params.Caseless := by
  intro before cs
  have hdollar : Caseless (· == '$') := caseless_marks _ (by decide)
  have hopen : Caseless (· == '\x7b') := caseless_marks _ (by decide)
  have hclose : Caseless (· != '\x7d') := (caseless_marks _ (by decide)).bne
  have hlength (cs : List Char) :
      ((lowercase cs).takeWhile (· != '\x7d')).length = (cs.takeWhile (· != '\x7d')).length := by
    rw [hclose.takeWhile_lowercase, Text.length_lowercase]
  cases cs with
  | nil => rfl
  | cons c cs =>
    by_cases hstart : c = '$' ∧ cs.head? = some '\x7b'
    · obtain ⟨rfl, hhead⟩ := hstart
      obtain ⟨cs, rfl⟩ := List.head?_eq_some_iff.mp hhead
      have hlower : lowercase ('$' :: '\x7b' :: cs) = '$' :: '\x7b' :: lowercase cs := rfl
      simp only [hlower, params, hlength, Text.length_lowercase]
    · rw [not_and] at hstart
      rw [Words.Plain.params_leave hstart, Text.lowercase_cons, Words.Plain.params_leave]
      rw [hdollar.toLower_eq_iff]
      exact fun hc => hopen.head_lowercase_ne (hstart hc)

end Literal

namespace Words

private theorem caseless_commands : commands.Caseless := by
  intro before cs
  cases cs with
  | nil => rfl
  | cons c cs =>
    rw [Text.lowercase_cons, commands, commands, Text.caseless_isIdentifierStart c,
      Text.caseless_isBlank.dropWhile_lowercase,
      (caseless_marks '|' (by decide)).head_beq_lowercase,
      Text.caseless_isIdentifierRest.takeWhile_lowercase, Text.length_lowercase]

private theorem caseless_functionNames : functionNames.Caseless := by
  intro before cs
  cases cs with
  | nil => rfl
  | cons c cs =>
    have hkeyword (n : Nat) :
        keyword? (c.toLower :: lowercase (cs.take n)) = keyword? (c :: cs.take n) :=
      keyword?_lowercase (c :: cs.take n)
    simp only [Text.lowercase_cons, functionNames, Text.caseless_isIdentifierStart c,
      Text.caseless_isIdentifierRest.takeWhile_lowercase, Text.length_lowercase,
      Text.drop_lowercase, Text.take_lowercase,
      (caseless_marks '(' (by decide)).head_beq_lowercase, hkeyword]

private theorem caseless_single (kind : TokenKind) {q : Char → Bool} (hq : Caseless q) :
    (Rule.single kind q).Caseless := by
  intro before cs
  cases cs with
  | nil => rfl
  | cons c cs => rw [Text.lowercase_cons, Rule.single, Rule.single, hq c]

private theorem caseless_blanks : blanks.Caseless := by
  intro before cs
  cases cs with
  | nil => rfl
  | cons c cs =>
    rw [Text.lowercase_cons, blanks, blanks, Text.caseless_isBlank c,
      Text.caseless_isBlank.takeWhile_lowercase, Text.length_lowercase]

private theorem afterWord?_lowercase (word cs : List Char) :
    afterWord? word (lowercase cs) = (afterWord? word cs).map lowercase := by
  fun_induction afterWord? word cs with
  | case1 cs => rw [afterWord?, Option.map_some]
  | case2 w ws c cs hsame ih =>
    have hlower : Text.sameLetter w c.toLower = true := by
      rwa [Text.sameLetter, Text.caseless_fold c]
    rw [Text.lowercase_cons, afterWord?, if_pos hlower, ih]
  | case3 w ws c cs hsame =>
    have hlower : ¬Text.sameLetter w c.toLower = true := by
      rwa [Text.sameLetter, Text.caseless_fold c]
    rw [Text.lowercase_cons, afterWord?, if_neg hlower]
    rfl
  | case4 w ws => rfl

private theorem afterBlanks?_lowercase (cs : List Char) :
    afterBlanks? (lowercase cs) = (afterBlanks? cs).map lowercase := by
  rw [afterBlanks?, afterBlanks?, Text.caseless_isBlank.head_any_lowercase,
    Text.caseless_isBlank.dropWhile_lowercase]
  split <;> rfl

private theorem afterPhrase?_lowercase (words : List String) (cs : List Char) :
    afterPhrase? words (lowercase cs) = (afterPhrase? words cs).map lowercase := by
  induction words generalizing cs with
  | nil => rfl
  | cons word words ih =>
    cases words with
    | nil =>
      simp only [afterPhrase?, afterWord?_lowercase]
      cases afterWord? word.toList cs with
      | none => rfl
      | some rest =>
        simp only [Option.map_some, Option.bind_eq_bind, Option.bind_some,
          Text.caseless_isBlank.head_all_lowercase]
        split <;> rfl
    | cons next words =>
      simp only [afterPhrase?, afterWord?_lowercase]
      cases afterWord? word.toList cs with
      | none => rfl
      | some rest =>
        simp only [Option.map_some, Option.bind_eq_bind, Option.bind_some, afterBlanks?_lowercase]
        cases afterBlanks? rest with
        | none => rfl
        | some rest => exact ih rest

private theorem caseless_phrase (kind : TokenKind) (words : List String) :
    (phrase kind words).Caseless := by
  intro before cs
  rw [phrase, phrase, Text.caseless_isBlank.head_all_lowercase, afterPhrase?_lowercase]
  cases afterPhrase? words cs with
  | none => rfl
  | some rest => simp only [Option.map_some, Text.length_lowercase]

end Words

namespace Piece

def lowered (p : Piece) : Piece := ⟨p.kind, lowercase p.chars⟩

private theorem prepend_lowered (cs : List Char) (ps : List Piece) :
    prepend (lowercase cs) (ps.map lowered) = (prepend cs ps).map lowered := by
  cases ps with
  | nil => rfl
  | cons p ps =>
    obtain ⟨kind, chars⟩ := p
    by_cases hkind : kind = .unknown
    · subst hkind
      simp [prepend, lowered, Text.lowercase_append]
    · have hlowered : (lowered ⟨kind, chars⟩).kind ≠ .unknown := hkind
      rw [List.map_cons, prepend_cons hlowered, prepend_cons hkind]
      rfl

private theorem refine_lowered {split : List Char → List Piece}
    (h : ∀ cs, split (lowercase cs) = (split cs).map lowered) (ps : List Piece) :
    refine split (ps.map lowered) = (refine split ps).map lowered := by
  induction ps with
  | nil => rfl
  | cons p ps ih =>
    obtain ⟨kind, chars⟩ := p
    by_cases hkind : kind = .unknown
    · subst hkind
      rw [List.map_cons, lowered, refine_unknown, refine_unknown, List.map_append, h, ih]
    · have hlowered : (lowered ⟨kind, chars⟩).kind ≠ .unknown := hkind
      rw [List.map_cons, refine_known hlowered, refine_known hkind, List.map_cons, ih]

end Piece

namespace Rule
variable {rule : Rule}

/-- Such a rule finds in a text in lower case what it finds in the text, in lower case. -/
theorem Caseless.scan_lowercase (h : rule.Caseless) (skip : Nat) (before cs : List Char) :
    rule.scan skip (lowercase before) (lowercase cs) = (rule.scan skip before cs).map lowered := by
  fun_induction scan rule skip before cs with
  | case1 skip before => cases skip <;> rfl
  | case2 before skip c cs ih => exact ih
  | case3 before c cs more hrule ih =>
    have hlower : rule (lowercase before) (c.toLower :: lowercase cs) = .leave more := by
      rw [← hrule, ← h before (c :: cs), Text.lowercase_cons]
    rw [Text.lowercase_cons, scan, hlower]
    simp only [Text.take_lowercase, ← Text.lowercase_cons, ← prepend_lowered, ← ih]
  | case4 before c cs kind more hrule ih =>
    have hlower : rule (lowercase before) (c.toLower :: lowercase cs) = .mark kind more := by
      rw [← hrule, ← h before (c :: cs), Text.lowercase_cons]
    rw [Text.lowercase_cons, scan, hlower]
    simp only [Text.take_lowercase, ← Text.lowercase_cons, List.map_cons, lowered, ← ih]

private theorem Caseless.split_lowercase (h : rule.Caseless) (cs : List Char) :
    rule.split (lowercase cs) = (rule.split cs).map lowered :=
  h.scan_lowercase 0 [] cs

end Rule

private theorem Piece.spell_blur (known : List TokenKind) (ps : List Piece) :
    spell (blur known ps) = spell ps := by
  induction ps with
  | nil => rfl
  | cons p ps ih =>
    by_cases hp : p.kind ∈ known
    · rw [blur_cons_known hp, spell_cons, spell_cons, ih]
    · rw [blur_cons hp, spell_prepend, spell_cons, ih]

namespace Lexer

private theorem split_of_mem_stages : ∀ stage ∈ stages, ∀ cs,
    stage.1.split (lowercase cs) = (stage.1.split cs).map lowered := by
  have hmark (kind : TokenKind) (x : Char) (hx : Caseless (· == x)) :
      ∀ cs, (Rule.single kind (· == x)).split (lowercase cs) = _ :=
    (Words.caseless_single kind hx).split_lowercase
  simp only [stages, List.forall_mem_cons, ← Words.functionNames_split]
  exact ⟨Literal.caseless_quotes.split_lowercase, Literal.caseless_params.split_lowercase,
    Words.caseless_commands.split_lowercase, Words.caseless_functionNames.split_lowercase,
    hmark _ _ (caseless_marks _ (by decide)), hmark _ _ (caseless_marks _ (by decide)),
    (Words.caseless_phrase _ _).split_lowercase, (Words.caseless_phrase _ _).split_lowercase,
    Words.caseless_blanks.split_lowercase, hmark _ _ (caseless_marks _ (by decide)),
    hmark _ _ (caseless_marks _ (by decide)), by simp⟩

/-- The tokens of a text as the cutting stages have left them. -/
def view (cs : List Char) : List Piece := blur (kindsOf stages) (pieces cs)

private theorem spell_view (cs : List Char) : spell (view cs) = cs := by
  rw [view, spell_blur, (covers_pieces cs).spells]

private theorem view_lowercase (cs : List Char) : view (lowercase cs) = (view cs).map lowered := by
  have hrun (ss : List (Rule × List TokenKind)) (hss : ss ⊆ stages) (ps : List Piece) :
      runAll ss (ps.map lowered) = (runAll ss ps).map lowered := by
    induction ss generalizing ps with
    | nil => rfl
    | cons stage ss ih =>
      obtain ⟨hstage, hrest⟩ := List.cons_subset.mp hss
      rw [runAll, runAll, List.foldl_cons, List.foldl_cons,
        refine_lowered (split_of_mem_stages stage hstage)]
      exact ih hrest _
  have hstart : start (lowercase cs) = (start cs).map lowered := by
    cases cs <;> rfl
  rw [view, view, ← @runAll_start _ stages [] (by simp), ← @runAll_start _ stages [] (by simp),
    hstart, hrun stages (List.Subset.refl _)]

end Lexer

/-- The kinds of tokens that are words of the language: keywords, tests for null and commands. -/
def TokenKind.isReserved : TokenKind → Bool
  | .clause _ | .logic _ | .byWord | .asWord | .between | .betweenAnd | .inList | .dictionary
  | .isNull | .isNotNull | .command => true
  | _ => false

private theorem exists_append_of_forall₂_append {α β : Type} {R : α → β → Prop} {as as' : List α}
    {bs : List β} (h : List.Forall₂ R (as ++ as') bs) :
    ∃ bs₁ bs₂, bs = bs₁ ++ bs₂ ∧ List.Forall₂ R as bs₁ ∧ List.Forall₂ R as' bs₂ := by
  have hfront := List.forall₂_take as.length h
  have hback := List.forall₂_drop as.length h
  rw [List.take_left' rfl] at hfront
  rw [List.drop_left' rfl] at hback
  exact ⟨_, _, (List.take_append_drop as.length bs).symm, hfront, hback⟩

namespace Piece

/-- The second piece is the first with letters in another case, which only words of the language may
have. -/
structure Recases (p q : Piece) : Prop where
  kind : q.kind = p.kind
  letters : lowercase q.chars = lowercase p.chars
  plain : p.kind.isReserved = false → q.chars = p.chars

theorem Recases.spell_eq {ps qs : List Piece} (h : List.Forall₂ Recases ps qs)
    (hplain : ∀ p ∈ ps, p.kind.isReserved = false) : spell qs = spell ps := by
  induction h with
  | nil => rfl
  | cons hpq _ ih =>
    obtain ⟨hp, hrest⟩ := List.forall_mem_cons.mp hplain
    rw [spell_cons, spell_cons, hpq.plain hp, ih hrest]

private theorem Recases.lowercase_spell {ps qs : List Piece} (h : List.Forall₂ Recases ps qs) :
    lowercase (spell qs) = lowercase (spell ps) := by
  induction h with
  | nil => rfl
  | cons hpq _ ih =>
    rw [spell_cons, spell_cons, Text.lowercase_append, Text.lowercase_append, hpq.letters, ih]

end Piece

namespace Lexer

/-- What has no keyword in it is given no kind of a word of the language. -/
theorem isReserved_of_mem_nameAll {cs : List Char} (hkeyword : Words.keyword? cs = none) {p : Piece}
    (hp : p ∈ nameAll [⟨.unknown, cs⟩]) : p.kind.isReserved = false := by
  have hshape {q : Bool} {other kind : TokenKind} (hother : other.isReserved = false)
      (h : (if q then some other else none) = some kind) : kind.isReserved = false := by
    split at h <;> cases h
    exact hother
  cases hname : name? cs with
  | some kind =>
    rw [nameAll_of_some hname] at hp
    cases List.mem_singleton.mp hp
    have hlater : naming.tail.findSome? (· cs) = some kind := by
      rw [← hname, name?, naming, List.findSome?_cons, hkeyword]
      rfl
    obtain ⟨kindOf?, hmem, hkind⟩ := List.exists_of_findSome?_eq_some hlater
    simp only [naming, List.tail_cons, List.mem_cons, List.not_mem_nil, or_false] at hmem
    rcases hmem with rfl | rfl | rfl
    · exact hshape rfl hkind
    · exact hshape rfl hkind
    · obtain ⟨op, -, rfl⟩ := Option.map_eq_some_iff.mp hkind
      rfl
  | none =>
    rw [nameAll_of_none hname] at hp
    rcases mem_classify hp with ⟨hmem, hkind⟩ | ⟨-, hkind⟩
    · obtain ⟨r, rfl⟩ := Words.exists_relation_of_mem_split hmem hkind
      rfl
    · rw [hkind]
      unfold remaining
      split <;> rfl

private theorem Settles.isReserved_eq {p q : Piece} (h : Settles p q) :
    q.kind.isReserved = p.kind.isReserved := by
  rcases h with ⟨rfl, -⟩ | ⟨hp, rfl⟩ | ⟨hp, rfl⟩
  · rfl
  · rw [hp]
    rfl
  · rw [hp]
    rfl

theorem Settles.spell_eq {ps qs : List Piece} (h : List.Forall₂ Settles ps qs) :
    spell qs = spell ps := by
  induction h with
  | nil => rfl
  | cons hpq _ ih => rw [spell_cons, spell_cons, hpq.chars_eq, ih]

private theorem spell_nameAll_singleton {p : Piece} (hp : p.chars ≠ []) :
    spell (nameAll [p]) = p.chars := by
  obtain ⟨kind, chars⟩ := p
  by_cases hkind : kind = .unknown
  · subst hkind
    exact (covers_nameAll hp).spells
  · rw [nameAll_cons_known hkind, show nameAll [] = [] from rfl, spell_cons]
    exact List.append_nil _

/-- A piece that the cutting stages have left is named alike in two texts, if the case of letters
differs only in words of the language. -/
theorem nameAll_singleton_lowered {p p' : Piece} (hlowered : p'.lowered = p.lowered)
    (h : (∀ q ∈ nameAll [p], q.kind.isReserved = false) → p'.chars = p.chars) :
    (nameAll [p']).map lowered = (nameAll [p]).map lowered := by
  obtain ⟨kind, chars⟩ := p
  obtain ⟨kind', chars'⟩ := p'
  obtain ⟨rfl, hchars⟩ := Piece.mk.inj hlowered
  by_cases hkind : kind' = .unknown
  · subst hkind
    have hkeyword : Words.keyword? chars' = Words.keyword? chars := by
      rw [← Words.keyword?_lowercase, hchars, Words.keyword?_lowercase]
    cases hword : Words.keyword? chars with
    | some kind =>
      have hname (cs : List Char) (hcs : Words.keyword? cs = some kind) : name? cs = some kind := by
        rw [name?, naming, List.findSome?_cons, hcs]
      rw [nameAll_of_some (hname _ hword), nameAll_of_some (hname _ (hkeyword.trans hword))]
      exact congrArg (fun cs => [(⟨kind, cs⟩ : Piece)]) hchars
    | none =>
      have heq : chars' = chars := h fun q hq => isReserved_of_mem_nameAll hword hq
      rw [heq]
  · rw [nameAll_cons_known hkind, nameAll_cons_known hkind]
    exact congrArg (· :: _) hlowered

private theorem nameAll_lowered {ps ps' qs qs' : List Piece} (hne : ∀ p ∈ ps, p.chars ≠ [])
    (hlowered : ps'.map lowered = ps.map lowered) (hsettles : List.Forall₂ Settles (nameAll ps) qs)
    (hrecases : List.Forall₂ Recases qs qs') (hspell : spell ps' = spell qs') :
    (nameAll ps').map lowered = (nameAll ps).map lowered := by
  induction ps generalizing ps' qs qs' with
  | nil =>
    cases List.map_eq_nil_iff.mp hlowered
    rfl
  | cons p ps ih =>
    obtain ⟨hp, hrest⟩ := List.forall_mem_cons.mp hne
    obtain ⟨p', ps', rfl, hfirst, hothers⟩ := List.map_eq_cons_iff.mp hlowered
    have hcons (q : Piece) (rs : List Piece) : nameAll (q :: rs) = nameAll [q] ++ nameAll rs :=
      nameAll_append [q] rs
    rw [hcons] at hsettles
    obtain ⟨qs₁, qs₂, rfl, hsettles₁, hsettles₂⟩ := exists_append_of_forall₂_append hsettles
    obtain ⟨rs₁, rs₂, rfl, hrecases₁, hrecases₂⟩ := exists_append_of_forall₂_append hrecases
    have hchars : spell qs₁ = p.chars := by
      rw [Settles.spell_eq hsettles₁, spell_nameAll_singleton hp]
    have hlength : p'.chars.length = (spell rs₁).length := by
      rw [← Text.length_lowercase, ← Text.length_lowercase (spell rs₁),
        Recases.lowercase_spell hrecases₁, hchars]
      exact congrArg (fun q : Piece => q.chars.length) hfirst
    rw [spell_cons, spell_append] at hspell
    obtain ⟨hspell₁, hspell₂⟩ := List.append_inj hspell hlength
    have hplain : (∀ q ∈ nameAll [p], q.kind.isReserved = false) → p'.chars = p.chars := by
      intro hplain
      rw [hspell₁, ← hchars]
      refine Recases.spell_eq hrecases₁ ?_
      intro q hq
      obtain ⟨r, hr, hsettles⟩ := exists_of_forall₂ hsettles₁ hq
      rw [hsettles.isReserved_eq]
      exact hplain r hr
    rw [hcons p', hcons p, List.map_append, List.map_append,
      nameAll_singleton_lowered hfirst hplain, ih hrest hothers hsettles₂ hrecases₂ hspell₂]

private theorem markBetween_lowered (waiting : Bool) (ps : List Piece) :
    markBetween waiting (ps.map lowered) = (markBetween waiting ps).map lowered := by
  fun_induction markBetween waiting ps with
  | case1 => rfl
  | case2 _ p ps hkind ih | case3 p ps hkind ih | case4 _ p ps hkind _ ih | case5 _ p ps hkind ih
  | case6 _ p ps hkind ih | case7 _ p ps _ _ _ _ ih => simp_all [markBetween, lowered]

private theorem conclude_lowered (ps : List Piece) :
    conclude (ps.map lowered) = (conclude ps).map lowered := by
  rw [conclude, conclude, markBetween_lowered, classify, classify, List.map_map, List.map_map]
  refine List.map_congr_left fun p _ => ?_
  by_cases hkind : p.kind = .unknown
  · simp [lowered, hkind]
  · simp [lowered, hkind]

/-- Kinds and spans hang on the kinds and lengths of pieces. -/
theorem layout_lowered (source source' : String) (start : Nat) (ps : List Piece) :
    (layout source start ps).map (fun t => (t.kind, t.span)) =
      (layout source' start (ps.map lowered)).map fun t => (t.kind, t.span) := by
  induction ps generalizing start with
  | nil => rfl
  | cons p ps ih =>
    simp only [List.map_cons, layout, lowered, Text.byteLength_lowercase, ih]

private theorem le_start_of_mem_layout {source : String} {start : Nat} {ps : List Piece} {t : Token}
    (h : t ∈ layout source start ps) : start ≤ t.span.start := by
  induction ps generalizing start with
  | nil => cases h
  | cons p ps ih =>
    rcases List.mem_cons.mp h with rfl | h
    · exact Nat.le_refl _
    · exact Nat.le_trans (Nat.le_add_right _ _) (ih h)

/-- The second text differs from the first only in the case of ASCII letters, and only inside of
tokens of the first that are words of the language. -/
structure Recased (text text' : String) : Prop where
  length : text'.toList.length = text.toList.length
  letters : ∀ i < text.toList.length, text'.toList[i]? ≠ text.toList[i]? →
    text'.toList[i]?.map Char.toLower = text.toList[i]?.map Char.toLower ∧
      ∃ t ∈ tokens text, t.kind.isReserved ∧
        t.span.start ≤ Text.byteLength (text.toList.take i) ∧
        Text.byteLength (text.toList.take i) < t.span.stop

private theorem map_take_eq {α β : Type} (f : α → β) {xs ys : List α}
    (h : ∀ i < ys.length, xs[i]?.map f = ys[i]?.map f) : (xs.take ys.length).map f = ys.map f := by
  refine List.ext_getElem? fun i => ?_
  rw [List.getElem?_map, List.getElem?_map]
  by_cases hi : i < ys.length
  · rw [List.getElem?_take_of_lt hi, h i hi]
  · rw [List.getElem?_eq_none (by simp; omega), List.getElem?_eq_none (by omega)]

/-- The tokens of the second text, where it differs from the first only as it may: pieces that stand
where those of the first do. The induction is on the pieces, which are laid out from `start` on. -/
theorem exists_recases {source : String} {start : Nat} {ps : List Piece} {cs : List Char}
    (hlength : cs.length = (spell ps).length)
    (hletters : ∀ i < (spell ps).length, cs[i]? ≠ (spell ps)[i]? →
      cs[i]?.map Char.toLower = (spell ps)[i]?.map Char.toLower ∧
        ∃ t ∈ layout source start ps, t.kind.isReserved ∧
          t.span.start ≤ start + Text.byteLength ((spell ps).take i) ∧
          start + Text.byteLength ((spell ps).take i) < t.span.stop) :
    ∃ qs, List.Forall₂ Piece.Recases ps qs ∧ spell qs = cs := by
  induction ps generalizing start cs with
  | nil =>
    cases List.length_eq_zero_iff.mp hlength
    exact ⟨[], .nil, rfl⟩
  | cons p ps ih =>
    simp only [spell_cons, List.length_append] at hlength hletters
    have hhead (i : Nat) (hi : i < p.chars.length) (hne : cs[i]? ≠ p.chars[i]?) :
        cs[i]?.map Char.toLower = p.chars[i]?.map Char.toLower ∧ p.kind.isReserved := by
      have hspell : (p.chars ++ spell ps)[i]? = p.chars[i]? := List.getElem?_append_left hi
      obtain ⟨hcase, t, ht, hreserved, hstart, -⟩ := hletters i (by omega) (by rwa [hspell])
      rw [hspell] at hcase
      refine ⟨hcase, ?_⟩
      rcases List.mem_cons.mp ht with rfl | ht
      · exact hreserved
      · -- The tokens after the piece start behind it.
        have hbytes := Text.byteLength_take_lt hi
        have hnext := le_start_of_mem_layout ht
        rw [List.take_append_of_le_length (by omega)] at hstart
        omega
    obtain ⟨qs, hrecases, hspell⟩ := @ih (start + Text.byteLength p.chars) (cs.drop p.chars.length)
      (by rw [List.length_drop]; omega) (by
        intro i hi hne
        have hspell : (p.chars ++ spell ps)[p.chars.length + i]? = (spell ps)[i]? := by
          rw [List.getElem?_append_right (by omega), Nat.add_sub_cancel_left]
        rw [List.getElem?_drop] at hne ⊢
        obtain ⟨hcase, t, ht, hreserved, hstart, hstop⟩ :=
          hletters (p.chars.length + i) (by omega) (by rwa [hspell])
        rw [List.take_length_add_append, Text.byteLength_append, ← Nat.add_assoc] at hstart hstop
        rw [hspell] at hcase
        refine ⟨hcase, t, ?_, hreserved, hstart, hstop⟩
        rcases List.mem_cons.mp ht with rfl | ht
        · exact absurd hstop (by simp)
        · exact ht)
    refine ⟨⟨p.kind, cs.take p.chars.length⟩ :: qs, .cons ⟨rfl, ?_, ?_⟩ hrecases, ?_⟩
    · refine map_take_eq Char.toLower ?_
      intro i hi
      by_cases heq : cs[i]? = p.chars[i]?
      · rw [heq]
      · exact (hhead i hi heq).1
    · intro hplain
      have hsame (i : Nat) (hi : i < p.chars.length) : cs[i]? = p.chars[i]? := by
        refine Decidable.byContradiction fun hne => ?_
        rw [(hhead i hi hne).2] at hplain
        cases hplain
      simpa using map_take_eq id fun i hi => congrArg (Option.map id) (hsame i hi)
    · rw [spell_cons, hspell, List.take_append_drop]

/-- The words of the language may be written in either case: where the case of ASCII letters differs
only inside of keywords, tests for null and commands, the kinds and spans of all tokens are the
same. -/
theorem tokens_recased {text text' : String} (h : Recased text text') :
    (tokens text').map (fun t => (t.kind, t.span)) =
      (tokens text).map fun t => (t.kind, t.span) := by
  have hcovers := covers_pieces text.toList
  obtain ⟨qs, hrecases, hspell⟩ : ∃ qs, List.Forall₂ Piece.Recases (pieces text.toList) qs ∧
      spell qs = text'.toList := by
    have hletters := h.letters
    rw [tokens] at hletters
    refine @exists_recases text 0 _ _ ?_ ?_
    · rw [hcovers.spells, h.length]
    · rw [hcovers.spells]
      simpa only [Nat.zero_add] using hletters
  have hlower : lowercase text'.toList = lowercase text.toList := by
    rw [← hspell, Recases.lowercase_spell hrecases, hcovers.spells]
  have hview : (view text'.toList).map lowered = (view text.toList).map lowered := by
    rw [← view_lowercase, hlower, view_lowercase]
  have hnonempty : ∀ p ∈ view text.toList, p.chars ≠ [] := by
    rw [view]
    exact nonempty_blur hcovers.nonempty
  have hrough (cs : List Char) : rough cs = nameAll (view cs) := rough_eq cs
  have hsettles := settles_pieces text.toList
  rw [hrough] at hsettles
  have hnamed := nameAll_lowered hnonempty hview hsettles hrecases (by rw [spell_view, hspell])
  have hpieces : (pieces text'.toList).map lowered = (pieces text.toList).map lowered := by
    rw [pieces_eq_rough, ← conclude, ← conclude_lowered, hrough, hnamed, ← hrough, conclude_lowered,
      conclude, ← pieces_eq_rough]
  rw [tokens, tokens, layout_lowered text' text', hpieces, ← layout_lowered text]

/-- A keyword directly before a bracket, a command and a test for null, in both cases. -/
theorem tokens_recased_sample :
    Recased "| where not(a is  null) or B" "| wHERE Not(a IS  nulL) oR B" ∧
      (tokens "| wHERE Not(a IS  nulL) oR B").map (fun t => (t.kind, t.span)) =
        (tokens "| where not(a is  null) or B").map fun t => (t.kind, t.span) := by
  have h : Recased "| where not(a is  null) or B" "| wHERE Not(a IS  nulL) oR B" :=
    ⟨by decide +kernel, by decide +kernel⟩
  exact ⟨h, tokens_recased h⟩

end Lexer

end PipeQuery
