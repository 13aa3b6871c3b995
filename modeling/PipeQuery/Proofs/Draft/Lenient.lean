import PipeQuery.Proofs.Draft.Source
import PipeQuery.Proofs.Error.Compile
import PipeQuery.Proofs.Group.Acceptance
import PipeQuery.Proofs.Token.Named

/-!
The lenient reading of a data source, on queries that may not be complete. Whatever follows the name
has to be structured before the name is looked at, and this is all that it has to be.
-/
namespace PipeQuery

namespace Token

private theorem kinds_meaningful (ts : List Token) :
    (meaningful ts).map (·.kind) = (ts.map (·.kind)).filter (!·.isIgnorable) := by
  rw [meaningful, List.filter_map]
  rfl

end Token

namespace Level
variable {keyword name : Token}

def Names (keyword name : Token) (nodes : List Node) : Prop :=
  ∃ source span children rest,
    nodes = .group (.clause keyword) source span (.token name :: children) :: rest

private theorem names_add {l : Level} (h : Names keyword name l.nodes) (n : Node) :
    Names keyword name (l.add n).nodes := by
  obtain ⟨done, current⟩ := l
  obtain ⟨source, span, children, rest, heq⟩ := h
  cases current with
  | none => exact ⟨source, span, children, rest ++ [n], congrArg (· ++ [n]) heq⟩
  | some c =>
    cases done with
    | nil =>
      -- The clause is still being read, and the node goes to its end.
      simp only [nodes, OpenClause.close, Group.cover, Group.toNode, List.nil_append,
        List.cons.injEq, Node.group.injEq] at heq
      obtain ⟨⟨hkind, -, -, hchildren⟩, -⟩ := heq
      have hopen : (Level.add ⟨[], some c⟩ n).nodes =
          [.group c.kind c.source (c.span.joinAll ((c.children ++ [n]).map (·.span)))
            (c.children ++ [n])] := rfl
      rw [hkind, hchildren] at hopen
      exact ⟨_, _, children ++ [n], [], hopen⟩
    | cons d done =>
      obtain ⟨rfl, -⟩ := List.cons.inj heq
      exact ⟨source, span, children, done ++ [_], rfl⟩

private theorem names_start {l : Level} (h : Names keyword name l.nodes) (c : OpenClause) :
    Names keyword name (l.start c).nodes := by
  obtain ⟨source, span, children, rest, heq⟩ := h
  exact ⟨source, span, children, rest ++ [c.close], congrArg (· ++ [c.close]) heq⟩

def bottom : List (Opening × Level) → Level → Level
  | [], level => level
  | (_, around) :: outer, _ => bottom outer around

private theorem names_bottom {l l' : Level}
    (h : Names keyword name l.nodes → Names keyword name l'.nodes)
    (outer : List (Opening × Level)) (hl : Names keyword name (bottom outer l).nodes) :
    Names keyword name (bottom outer l').nodes := by
  cases outer with
  | nil => exact h hl
  | cons p outer => exact hl

/-- What the first clause starts with does not change while more is read. -/
theorem Reads.names {outer : List (Opening × Level)} {level : Level} {ts : List Token}
    {nodes : List Node} (h : Reads outer level ts nodes)
    (hbottom : Names keyword name (bottom outer level).nodes) : Names keyword name nodes := by
  induction h with
  | done level => exact hbottom
  | @close opening around outer level t ts nodes kind rest ih =>
    exact ih (names_bottom (fun hl => names_add hl _) outer hbottom)
  | @pipe outer level t c ts nodes kind command rest ih =>
    exact ih (names_bottom (fun hl => names_start hl _) outer hbottom)
  | function kind bracket rest ih => exact ih hbottom
  | bracket kind rest ih => exact ih hbottom
  | clause kind rest ih => exact ih (names_start hbottom _)
  | @leaf outer level t ts nodes leaf rest ih =>
    exact ih (names_bottom (fun hl => names_add hl _) outer hbottom)

/-- A keyword and a name at the start are the first clause and its first node, if what follows them
can be structured. -/
theorem read_keyword {clause : Clause} (hkeyword : keyword.kind = .clause clause)
    (hname : name.kind.isString) (ts : List Token) :
    ((∃ nodes, read [] {} (keyword :: name :: ts) = .ok nodes) ↔ Token.WellStructured 0 ts) ∧
      ∀ nodes, read [] {} (keyword :: name :: ts) = .ok nodes → Names keyword name nodes := by
  have hread : read [] {} (keyword :: name :: ts) =
      read [] ⟨[], some ⟨.clause keyword, keyword.source, keyword.span, [.token name]⟩⟩ ts := by
    have hfirst : read [] {} (keyword :: name :: ts) =
        read [] ⟨[], some ⟨.clause keyword, keyword.source, keyword.span, []⟩⟩ (name :: ts) := by
      rw [read.eq_def]
      simp only [hkeyword]
      rfl
    rw [hfirst, read.eq_def]
    cases hkind : name.kind <;> simp_all [add, TokenKind.isString]
  rw [hread]
  refine ⟨exists_read_eq_ok_iff [] _ ts, fun nodes h => ?_⟩
  exact (reads_of_read_eq_ok h).names ⟨_, _, [], [], rfl⟩

end Level

namespace Lexer
open Token

/-- The meaningful tokens of a layout that starts with two pieces and a blank after each. -/
theorem meaningful_layout {source : String} {first second : Piece} {blank blank' : List Char}
    {ps : List Piece} (hfirst : first.kind.isIgnorable = false)
    (hsecond : second.kind.isIgnorable = false)
    (hspell : source.toList = [] ++
      Piece.spell (first :: ⟨.whitespace, blank⟩ :: second :: ⟨.whitespace, blank'⟩ :: ps)) :
    ∃ t u ts, meaningful (layout source 0
        (first :: ⟨.whitespace, blank⟩ :: second :: ⟨.whitespace, blank'⟩ :: ps)) = t :: u :: ts ∧
      t.kind = first.kind ∧ u.kind = second.kind ∧ u.slice = String.ofList second.chars ∧
      ts.map (·.kind) = (ps.map (·.kind)).filter (!·.isIgnorable) := by
  have hslices := slices_layout hspell
  simp only [layout, List.map_cons, List.cons.injEq] at hslices
  have hmeaningful (t u v w : Token) (ts : List Token) (ht : t.kind.isIgnorable = false)
      (hu : u.kind.isIgnorable = true) (hv : v.kind.isIgnorable = false)
      (hw : w.kind.isIgnorable = true) :
      meaningful (t :: u :: v :: w :: ts) = t :: v :: meaningful ts := by
    simp [meaningful, ht, hu, hv, hw]
  refine ⟨_, _, _, hmeaningful _ _ _ _ _ hfirst rfl hsecond rfl, rfl, rfl, hslices.2.2.1, ?_⟩
  rw [kinds_meaningful, kinds_layout]

/-- The meaningful tokens of `from`, a name and more: the keyword, the name, and tokens of the same
kinds as those of the rest on its own. -/
theorem meaningful_source {cs value : List Char} {kind : TokenKind} {text suffix : String}
    (h : Spelling cs kind value)
    (htext : text.toList = "from".toList ++ ' ' :: (cs ++ ' ' :: suffix.toList)) :
    ∃ keyword name ts, meaningful (tokens text) = keyword :: name :: ts ∧
      keyword.kind = .clause .source ∧ name.kind = kind ∧ name.slice = String.ofList cs ∧
      ts.map (·.kind) = (meaningful (tokens suffix)).map (·.kind) := by
  have hcut := pieces_source h suffix.toList
  rw [← htext] at hcut
  have hspell : text.toList = [] ++ Piece.spell (pieces text.toList) := by
    rw [List.nil_append, (covers_pieces text.toList).spells]
  rw [tokens]
  generalize pieces text.toList = all at hcut hspell
  obtain ⟨blank, blanks, ps, hblanks, hrest, rfl⟩ := hcut
  have hkind : kind.isIgnorable = false := by
    cases h <;> rfl
  simp only [List.cons_append, List.nil_append ps] at hspell ⊢
  obtain ⟨t, u, ts, hmeaningful, ht, hu, hslice, hts⟩ := meaningful_layout rfl hkind hspell
  refine ⟨t, u, ts, hmeaningful, ht, hu, hslice, ?_⟩
  have hignored : (blanks.map (·.kind)).filter (!·.isIgnorable) = [] := by
    rw [List.filter_eq_nil_iff]
    simp +contextual [hblanks, TokenKind.isIgnorable]
  rw [hts, kinds_meaningful, tokens, kinds_layout, hrest, List.map_append, List.filter_append,
    hignored, List.nil_append]

end Lexer

/-- A clause that starts with a name gives the source that the name resolves to. -/
theorem SourceClause.readFirst_of_name {services : Services} {g : Group} {name : Token}
    {children : List Node} {value : String} {doc : DocRef}
    (hg : g.children = .token name :: children) (hstring : name.kind.isString)
    (hvalue : name.unescaped = value) (hdoc : services.resolveSource value = .ok doc) :
    readFirst services g = .ok doc := by
  have hnode : (Node.token name).isString := hstring
  have hunescaped : (Node.token name).unescaped = value := hvalue
  rw [readFirst, hg]
  simp only [resolve, hnode, hunescaped, hdoc, if_true]

open Token in
/-- The lenient reading of `from`, a name and a suffix gives the data source of the name if and only
if the suffix can be structured: its brackets match, every pipe in it stands directly before a
command, and every function name directly before an open bracket. It never gives another source. -/
theorem dataSourceOnly_suffix {services : Services} {name value : String} {kind : TokenKind}
    {doc : DocRef} (hname : Spelling name.toList kind value.toList)
    (hdoc : services.resolveSource value = .ok doc) (suffix : String) :
    (dataSourceOnly services ("from " ++ name ++ " " ++ suffix) = .ok doc ↔
      WellStructured 0 (meaningful (Lexer.tokens suffix))) ∧
    ∀ other, dataSourceOnly services ("from " ++ name ++ " " ++ suffix) = .ok other →
      other = doc := by
  have htext : ("from " ++ name ++ " " ++ suffix).toList =
      "from".toList ++ ' ' :: (name.toList ++ ' ' :: suffix.toList) := by simp
  generalize "from " ++ name ++ " " ++ suffix = text at htext ⊢
  obtain ⟨t, u, ts, hmeaningful, ht, hu, hslice, hkinds⟩ := Lexer.meaningful_source hname htext
  have hmem : t ∈ meaningful (Lexer.tokens text) := hmeaningful ▸ List.mem_cons_self
  obtain ⟨hok, hnames⟩ := Level.read_keyword ht (hu ▸ hname.isString) ts
  rw [← wellStructured_congr hkinds, ← hok]
  have hroot := rootOf_of_mem (List.mem_filter.mp hmem).1
  rw [Group.ofTokens_eq, hmeaningful] at hroot
  cases hread : Level.read [] {} (t :: u :: ts) with
  | error e =>
    rw [hread] at hroot
    have hrefused : dataSourceOnly services text = .error e := by
      rw [dataSourceOnly, hroot]
      rfl
    simp [hrefused]
  | ok nodes =>
    obtain ⟨source, span, children, rest, rfl⟩ := hnames nodes hread
    rw [hread] at hroot
    have hvalue := hname.unescaped_eq hu hslice
    rw [String.ofList_toList] at hvalue
    have hfound : dataSourceOnly services text = .ok doc := by
      let clause : Group := ⟨.clause t, source, span, .token u :: children⟩
      rw [dataSourceOnly_of_root (g := clause) hroot rfl ht]
      exact SourceClause.readFirst_of_name rfl (hu ▸ hname.isString) hvalue hdoc
    simp [hfound, eq_comm]

namespace SourceClause.Sample

def doc : DocRef := ⟨"View", "u", "A B"⟩

private theorem spelling_quoted : Spelling "'a b'".toList .singleQuoted "a b".toList :=
  .single (.plain (by decide) (by decide) (.plain (by decide) (by decide)
    (.plain (by decide) (by decide) .nil)))

private theorem resolveSource_doc :
    context.services.resolveSource "a b" = .ok doc := by decide +kernel

end SourceClause.Sample

open SourceClause.Sample in
theorem dataSourceOnly_suffix_sample :
    dataSourceOnly context.services ("from " ++ "'a b'" ++ " " ++ "where x >") = .ok doc ∧
      dataSourceOnly context.services ("from " ++ "'a b'" ++ " " ++ "where (x") ≠ .ok doc := by
  have hsuffix := dataSourceOnly_suffix spelling_quoted resolveSource_doc
  constructor
  · rw [(hsuffix _).1, ← Group.exists_ofTokens_eq_ok_iff]
    exact exists_eq_ok_of_isOk (by decide +kernel)
  · have hrefused : (Group.ofTokens (Lexer.tokens "where (x")).isOk = false := by decide +kernel
    rw [Ne, (hsuffix _).1, ← Group.exists_ofTokens_eq_ok_iff]
    rintro ⟨root, hroot⟩
    rw [hroot] at hrefused
    cases hrefused

open SourceClause.Sample in
/-- An open bracket after the name is enough to lose the data source. -/
theorem dataSourceOnly_open_bracket :
    Spelling "'a b'".toList .singleQuoted "a b".toList ∧
      context.services.resolveSource "a b" = .ok doc ∧
      dataSourceOnly context.services ("from " ++ "'a b'" ++ " " ++ "(") =
        .error ⟨.unclosedBracket, some ⟨⟨11, 12⟩, "("⟩⟩ :=
  ⟨spelling_quoted, resolveSource_doc, by decide +kernel⟩

end PipeQuery
