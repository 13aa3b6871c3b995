import PipeQuery.Proofs.Group.Moved
import PipeQuery.Proofs.Token.Relations
import PipeQuery.Scalar

/-!
Texts as quoted literals. Written with a backslash before every quote and every backslash, a text is
read back from its literal wherever the literal stands. The text literal of a rendered expression is
written with a backslash before every quote only, so it is read back if the text has no backslash,
and in no other case.
-/
namespace PipeQuery

open Piece

private theorem Quoted.unescapeBody_cons (quote : Char) {c : Char} (hc : c ≠ '\\')
    (cs : List Char) :
    unescapeBody quote (c :: cs) = if c = quote then [] else c :: unescapeBody quote cs := by
  rw [unescapeBody]
  · rintro rfl
    exact absurd rfl hc
  · rintro d ds rfl
    exact absurd rfl hc

inductive QuoteMark where
  | single
  | double
  deriving DecidableEq, Repr

namespace QuoteMark

def char : QuoteMark → Char
  | .single => '\''
  | .double => '"'

def kind : QuoteMark → TokenKind
  | .single => .singleQuoted
  | .double => .doubleQuoted

def escape (q : QuoteMark) (value : List Char) : List Char :=
  value.flatMap fun c => if c = q.char ∨ c = '\\' then ['\\', c] else [c]

def quote (q : QuoteMark) (value : String) : String :=
  String.ofList (q.char :: (q.escape value.toList ++ [q.char]))

private theorem toList_quote (q : QuoteMark) (value : String) :
    (q.quote value).toList = q.char :: (q.escape value.toList ++ [q.char]) :=
  String.toList_ofList

private theorem spells_escape (q : QuoteMark) (value : List Char) :
    Quoted.Spells q.char (q.escape value) value := by
  induction value with
  | nil => exact .nil
  | cons c value ih =>
    rw [escape, List.flatMap_cons]
    split
    next => exact .escaped ih
    next h =>
      obtain ⟨hquote, hescape⟩ := not_or.mp h
      exact .plain hquote hescape ih

private theorem char_ne_backslash (q : QuoteMark) : q.char ≠ '\\' := by
  cases q <;> decide

private theorem unescape_quote (q : QuoteMark) (value : String) :
    Quoted.unescape (q.quote value).toList = value.toList := by
  rw [toList_quote]
  exact (q.spells_escape _).unescape_eq q.char_ne_backslash

private theorem marks_quote (q : QuoteMark) (value : String) (rest : List Char) :
    Literal.quotesAndComments.Marks ⟨q.kind, (q.quote value).toList⟩ rest := by
  have hrule (before rest : List Char) : Literal.quotesAndComments before (q.char :: rest) =
      .mark q.kind (Quoted.tailLength q.char rest) := by
    cases q <;> rfl
  rw [toList_quote]
  exact Spelling.marks q.char q.kind (q.spells_escape _) q.char_ne_backslash hrule rest

theorem kind_ne_unknown (q : QuoteMark) : q.kind ≠ .unknown := by
  cases q <;> decide

private theorem isQuoted_kind (q : QuoteMark) : q.kind.isQuoted := by
  cases q <;> rfl

theorem unescaped_eq {q : QuoteMark} {value : String} {t : Token} (hkind : t.kind = q.kind)
    (hslice : t.slice = q.quote value) : t.unescaped = value := by
  rw [Token.unescaped, hkind, if_pos q.isQuoted_kind, hslice, unescape_quote, String.ofList_toList]

end QuoteMark

/-- A lexeme that is found early stays, after the text that stood before it. -/
theorem Piece.exists_of_blur_eq {known : List TokenKind} {p : Piece} (hp : p.kind ≠ .unknown)
    {ps front back : List Piece} (h : blur known ps = front ++ p :: back) :
    ∃ front' back', ps = front' ++ p :: back' ∧ spell front' = spell front := by
  induction ps generalizing front with
  | nil => simp [blur] at h
  | cons q ps ih =>
    by_cases hq : q.kind ∈ known
    · rw [blur_cons_known hq] at h
      cases front with
      | nil =>
        obtain ⟨rfl, -⟩ := List.cons.inj h
        exact ⟨[], ps, rfl, rfl⟩
      | cons first front =>
        obtain ⟨rfl, hrest⟩ := List.cons.inj h
        obtain ⟨front', back', rfl, hspell⟩ := ih hrest
        exact ⟨q :: front', back', rfl, by rw [spell_cons, spell_cons, hspell]⟩
    · rw [blur_cons hq] at h
      obtain ⟨between, hps, hspell⟩ := prepend_eq_append hp h
      obtain ⟨front', back', rfl, hspell'⟩ := ih hps
      exact ⟨q :: front', back', rfl, by rw [spell_cons, hspell', hspell]⟩

private theorem Piece.eq_nil_of_spell {ps : List Piece} (hps : ∀ p ∈ ps, p.chars ≠ [])
    (h : spell ps = []) : ps = [] := by
  cases ps with
  | nil => rfl
  | cons p ps =>
    obtain ⟨hchars, -⟩ := List.append_eq_nil_iff.mp h
    exact absurd hchars (hps p (by simp))

namespace Lexer

/-- The scan for literals finds one after a text that opens neither a literal nor a comment. -/
theorem split_literal {p : Piece} (hp : p.kind ≠ .unknown) {front back : List Char}
    (hmarks : Literal.quotesAndComments.Marks p back)
    (hfront : ∀ c ∈ front, c ≠ '"' ∧ c ≠ '\'' ∧ c ≠ '/') :
    ∃ before after, Literal.quotesAndComments.split (front ++ (p.chars ++ back)) =
      before ++ p :: after ∧ spell before = front := by
  have hforgets := Words.Plain.forgets_of_eq Words.Plain.quotesAndComments_before
  have hsplit := hmarks.split_eq (hforgets p.chars)
  by_cases hne : front = []
  · subst hne
    exact ⟨[], _, hsplit, rfl⟩
  · have hskips : Literal.quotesAndComments.Skips front := by
      refine Rule.skips_of_leave hne (hforgets front) ?_
      rintro f c b rfl rest
      obtain ⟨hdouble, hsingle, hslash⟩ := hfront c (by simp)
      exact Literal.quotesAndComments_leave hdouble hsingle (fun h => absurd h hslash) _
    refine ⟨[⟨.unknown, front⟩], Literal.quotesAndComments.split back, ?_, by simp [spell]⟩
    rw [hskips, hsplit, prepend_cons hp]
    rfl

/-- The literal is a lexeme of the text: no later stage touches it. -/
theorem pieces_literal {p : Piece} (hp : p.kind ≠ .unknown) {front back : List Char}
    (hmarks : Literal.quotesAndComments.Marks p back)
    (hfront : ∀ c ∈ front, c ≠ '"' ∧ c ≠ '\'' ∧ c ≠ '/') :
    ∃ before after, pieces (front ++ (p.chars ++ back)) = before ++ p :: after ∧
      spell before = front := by
  obtain ⟨before, after, hsplit, rfl⟩ := split_literal hp hmarks hfront
  have hfirst : stages = [(Literal.quotesAndComments, Literal.kinds)] ++ stages.tail := rfl
  have hrun := runAll_start (spell before ++ (p.chars ++ back)) hfirst
  rw [start, if_neg (by simp [hmarks.1])] at hrun
  have hnone : refine Literal.quotesAndComments.split [] = [] := rfl
  simp only [runAll, List.foldl_cons, List.foldl_nil, refine_unknown, hsplit, hnone,
    List.append_nil] at hrun
  exact exists_of_blur_eq hp hrun.symm

/-- A literal alone is one lexeme. -/
theorem pieces_quote (q : QuoteMark) (value : String) :
    pieces (q.quote value).toList = [⟨q.kind, (q.quote value).toList⟩] := by
  obtain ⟨before, after, hpieces, hspell⟩ :=
    pieces_literal q.kind_ne_unknown (q.marks_quote value []) (List.forall_mem_nil _)
  rw [List.nil_append, List.append_nil] at hpieces
  have hcovers := covers_pieces (q.quote value).toList
  rw [hpieces] at hcovers ⊢
  have hbefore : before = [] := by
    refine eq_nil_of_spell (fun p hp => ?_) hspell
    exact hcovers.nonempty p (List.mem_append_left _ hp)
  subst hbefore
  have hafter : after = [] := by
    refine eq_nil_of_spell (fun p hp => hcovers.nonempty p (by simp [hp])) ?_
    exact List.append_right_eq_self.mp hcovers.spells
  rw [hafter, List.nil_append]

/-- A text that is one token is what the token covers. -/
theorem slice_of_tokens_eq {text : String} {t : Token} (h : tokens text = [t]) :
    t.slice = text := by
  have hplaces := places_tokens text
  have hspells := (covers_pieces text.toList).spells
  rw [h] at hplaces
  obtain ⟨p, ps, ⟨-, hslice⟩, hnil, hpieces⟩ := List.forall₂_cons_right_iff.mp hplaces
  rw [hpieces, List.forall₂_nil_right_iff.mp hnil, spell_cons] at hspells
  have hchars : p.chars = text.toList := by simpa [spell] using hspells
  rw [hslice, hchars, String.ofList_toList]

/-- Quoting is lossless. A text that is written as a literal, after a text that opens neither a
literal nor a comment and before any text, is a token of its own that stands for the text. -/
theorem tokens_quote (q : QuoteMark) (value front back : String) (hsingle : '\'' ∉ front.toList)
    (hdouble : '"' ∉ front.toList) (hslash : '/' ∉ front.toList) :
    ∃ t ∈ tokens (front ++ q.quote value ++ back), t.kind = q.kind ∧
      t.span = ⟨front.utf8ByteSize, front.utf8ByteSize + (q.quote value).utf8ByteSize⟩ ∧
      t.unescaped = value := by
  have hfront (c : Char) (hc : c ∈ front.toList) : c ≠ '"' ∧ c ≠ '\'' ∧ c ≠ '/' := by
    refine ⟨?_, ?_, ?_⟩ <;> rintro rfl <;> contradiction
  have hlist : (front ++ q.quote value ++ back).toList =
      front.toList ++ ((q.quote value).toList ++ back.toList) := by
    simp
  obtain ⟨before, after, hpieces, hspell⟩ :=
    pieces_literal q.kind_ne_unknown (q.marks_quote value back.toList) hfront
  have hslice := Text.slice_between (by rw [hlist, List.append_assoc])
  rw [tokens, hlist, hpieces, layout_append, Nat.zero_add, hspell, layout]
  refine ⟨_, List.mem_append_right _ (List.mem_cons_self ..), rfl, ?_, ?_⟩
  · rw [Text.byteLength_toList, Text.byteLength_toList]
  · exact QuoteMark.unescaped_eq rfl (hslice.trans (String.ofList_toList ..))

theorem tokens_quote_sample :
    ∃ t ∈ tokens "where é = 'it\\'s \"é\" /* \\\\''| and", t.kind = .singleQuoted ∧
      t.span = ⟨11, 29⟩ ∧ t.unescaped = "it's \"é\" /* \\" := by
  have hquote : QuoteMark.single.quote "it's \"é\" /* \\" = "'it\\'s \"é\" /* \\\\'" := by decide
  have htext : "where é = " ++ "'it\\'s \"é\" /* \\\\'" ++ "'| and" =
      "where é = 'it\\'s \"é\" /* \\\\''| and" := by
    decide
  have hfound := tokens_quote .single "it's \"é\" /* \\" "where é = " "'| and" (by decide)
    (by decide) (by decide)
  rw [hquote, htext] at hfound
  exact hfound

end Lexer

namespace Expr

/-- What the rendered literal of a text is read as. A backslash of the text takes what is written
after it for a plain character: the closing quote, the backslash of an escaped quote, which then
closes the literal, or the next character. -/
def readBack : List Char → List Char
  | [] => []
  | ['\\'] => ['\'']
  | '\\' :: '\'' :: _ => ['\\']
  | '\\' :: c :: cs => c :: readBack cs
  | c :: cs => c :: readBack cs

private theorem unescapeBody_literal (value : List Char) :
    Quoted.unescapeBody '\'' (value.flatMap escapeQuote ++ ['\'']) = readBack value := by
  fun_induction readBack value with
  | case1 => rfl
  | case2 => rfl
  | case3 cs => rfl
  | case4 c cs hquote ih =>
    have hc : escapeQuote c = [c] := if_neg hquote
    simp only [List.flatMap_cons, hc]
    exact congrArg (c :: ·) ih
  | case5 c cs hlast _ hmore ih =>
    have hc : c ≠ '\\' := Quoted.ne_backslash hlast hmore
    by_cases hquote : c = '\''
    · subst hquote
      exact congrArg ('\'' :: ·) ih
    · have hescape : escapeQuote c = [c] := if_neg hquote
      rw [List.flatMap_cons, hescape, List.append_assoc, List.singleton_append,
        Quoted.unescapeBody_cons _ hc, if_neg hquote, ih]

private theorem length_readBack_le (value : List Char) :
    (readBack value).length ≤ value.length := by
  fun_induction readBack value with
  | case1 => exact Nat.le_refl 0
  | case2 => exact Nat.le_refl 1
  | case3 cs => simp
  | case4 c cs _ ih =>
    rw [List.length_cons, List.length_cons, List.length_cons]
    omega
  | case5 c cs _ _ _ ih => exact Nat.succ_le_succ ih

/-- A text with a backslash does not come back. -/
theorem not_mem_of_readBack_eq (value : List Char) (h : readBack value = value) : '\\' ∉ value := by
  fun_induction readBack value with
  | case1 => simp
  | case2 => simp at h
  | case3 cs => simp at h
  | case4 c cs hquote ih =>
    obtain ⟨rfl, hrest⟩ := List.cons.inj h
    have hlength := length_readBack_le cs
    rw [hrest, List.length_cons] at hlength
    omega
  | case5 c cs hlast _ hmore ih =>
    have hc : c ≠ '\\' := Quoted.ne_backslash hlast hmore
    have hcs := ih (List.cons.inj h).2
    rw [List.mem_cons]
    rintro (rfl | hmem)
    · exact hc rfl
    · exact hcs hmem

/-- A text without backslashes is rendered as it is quoted. -/
theorem render_text_eq_quote {value : String} (h : '\\' ∉ value.toList) :
    (Expr.text value).render = QuoteMark.single.quote value := by
  have hescape (c : Char) (hc : c ∈ value.toList) :
      escapeQuote c = if c = '\'' ∨ c = '\\' then ['\\', c] else [c] := by
    have hne : c ≠ '\\' := fun heq => h (heq ▸ hc)
    by_cases hquote : c = '\''
    · subst hquote
      rfl
    · rw [escapeQuote, if_neg hquote, if_neg (not_or.mpr ⟨hquote, hne⟩)]
  have hbody : value.toList.flatMap escapeQuote = QuoteMark.single.escape value.toList :=
    List.flatMap_congr hescape
  apply String.toList_injective
  rw [QuoteMark.toList_quote, ← hbody]
  simp [render, QuoteMark.char]

/-- The text literal of a rendered expression is read as one literal that stands for the text if and
only if the text has no backslash. -/
theorem tokens_render_text_iff (value : String) :
    (∃ t, Lexer.tokens (Expr.text value).render = [t] ∧ t.kind.isQuoted ∧ t.unescaped = value) ↔
      '\\' ∉ value.toList := by
  constructor
  · rintro ⟨t, htokens, hquoted, hvalue⟩
    have hslice := Lexer.slice_of_tokens_eq htokens
    have hrender : (Expr.text value).render.toList =
        '\'' :: (value.toList.flatMap escapeQuote ++ ['\'']) := by
      simp [render]
    rw [Token.unescaped, if_pos hquoted, hslice, hrender, Quoted.unescape, unescapeBody_literal]
      at hvalue
    refine not_mem_of_readBack_eq value.toList ?_
    rw [← String.toList_ofList (l := readBack value.toList), hvalue]
  · intro h
    have hpieces := Lexer.pieces_quote .single value
    have hplaces := Lexer.places_tokens (QuoteMark.single.quote value)
    rw [hpieces] at hplaces
    obtain ⟨t, ts, ⟨hkind, hslice⟩, hnil, htokens⟩ := List.forall₂_cons_left_iff.mp hplaces
    rw [List.forall₂_nil_left_iff.mp hnil] at htokens
    rw [String.ofList_toList] at hslice
    rw [render_text_eq_quote h]
    exact ⟨t, htokens, by rw [hkind]; rfl, QuoteMark.unescaped_eq hkind hslice⟩

/-- The backslash is taken for the start of an escape, and lost. -/
theorem backslash_not_read_back :
    ¬∃ t, Lexer.tokens (Expr.text "a\\b").render = [t] ∧ t.kind.isQuoted ∧
      t.unescaped = "a\\b" := by
  have htokens : Lexer.tokens (Expr.text "a\\b").render =
      [⟨.singleQuoted, "'a\\b'", ⟨0, 5⟩⟩] := by
    decide +kernel
  rintro ⟨t, ht, -, hvalue⟩
  rw [htokens] at ht
  obtain ⟨rfl, -⟩ := List.cons.inj ht
  exact absurd hvalue (by decide)

end Expr

end PipeQuery
