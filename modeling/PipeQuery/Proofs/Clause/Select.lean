import Mathlib.Data.List.Chain
import PipeQuery.Proofs.Draft.Walk

/-!
The language of `select` clauses. A clause is a list of entries with commas between them, and one more
comma may stand at the end. An entry is complete if it is a field, a wildcard or a call, or one of
these with `as` and a name. Besides complete entries the reader accepts those that end with `as`.
-/
namespace PipeQuery

namespace SelectClause

variable {scalar : Node → Except SyntaxError Expr}

inductive Chooses (scalar : Node → Except SyntaxError Expr) : Node → Selection → Prop where
  | field {n : Node} (kind : isField n.kind = true) : Chooses scalar n ⟨.field n, n.unescaped⟩
  | call {n : Node} {e : Expr} (kind : n.kind = .functionGroup) (reads : scalar n = .ok e) :
    Chooses scalar n ⟨.expression e, n.text⟩

/-- A complete entry: what is selected, and if wanted `as` and a name for it. -/
inductive Entry (scalar : Node → Except SyntaxError Expr) : List Node → Selection → Prop where
  | plain {n : Node} {s : Selection} (chosen : Chooses scalar n s) : Entry scalar [n] s
  | named {n word name : Node} {s : Selection} (chosen : Chooses scalar n s)
    (as : word.kind = .asWord) (kind : isField name.kind = true) :
    Entry scalar [n, word, name] { s with name := name.unescaped }

inductive LooseEntry (scalar : Node → Except SyntaxError Expr) : List Node → Selection → Prop where
  | complete {ns : List Node} {s : Selection} (entry : Entry scalar ns s) : LooseEntry scalar ns s
  | unnamed {n word : Node} {s : Selection} (chosen : Chooses scalar n s)
    (as : word.kind = .asWord) : LooseEntry scalar [n, word] s

/-- Entries with commas between them, and maybe one more at the end. -/
inductive Listed (entry : List Node → Selection → Prop) : List Node → List Selection → Prop where
  | nil : Listed entry [] []
  | last {ns : List Node} {s : Selection} (h : entry ns s) : Listed entry ns [s]
  | cons {ns rest : List Node} {c : Node} {s : Selection} {ss : List Selection} (h : entry ns s)
    (comma : c.kind = .comma) (more : Listed entry rest ss) :
    Listed entry (ns ++ c :: rest) (s :: ss)

/-- No `as` stands at the end or before a comma. -/
structure AllNamed (ns : List Node) : Prop where
  inside : ns.IsChain fun a b => a.kind = .asWord → b.kind ≠ .comma
  atEnd : ∀ n ∈ ns.getLast?, n.kind ≠ .asWord

/-- The nodes that have been read of an entry, by how far it has been read. -/
def Progress.Spans (scalar : Node → Except SyntaxError Expr) : Progress → List Node → Prop
  | .nothing, ns => ns = []
  | .chosen s, ns => ∃ n, ns = [n] ∧ Chooses scalar n s
  | .naming s, ns => ∃ n word, ns = [n, word] ∧ Chooses scalar n s ∧ word.kind = .asWord
  | .named s, ns => Entry scalar ns s

private theorem Progress.Spans.looseEntry {p : Progress} {ns : List Node} {s : Selection}
    (h : p.Spans scalar ns) (hs : p.finish? = some s) : LooseEntry scalar ns s := by
  cases p with
  | nothing => cases hs
  | chosen s' =>
    cases hs
    obtain ⟨n, rfl, hchosen⟩ := h
    exact .complete (.plain hchosen)
  | naming s' =>
    cases hs
    obtain ⟨n, word, rfl, hchosen, hword⟩ := h
    exact .unnamed hchosen hword
  | named s' =>
    cases hs
    exact .complete h

/-- One more node makes the entry one node longer. -/
theorem Progress.Spans.readNode {p p' : Progress} {ns : List Node} {n : Node}
    (h : p.Spans scalar ns) (hread : readNode scalar p n = .ok p') : p'.Spans scalar (ns ++ [n]) := by
  unfold SelectClause.readNode at hread
  split at hread
  next hcall =>
    cases p with
    | nothing =>
      obtain ⟨e, he, hp⟩ := bind_eq_ok.mp hread
      cases hp
      cases h
      exact ⟨n, rfl, .call hcall he⟩
    | _ => cases hread
  next hcall =>
    split at hread
    next hfield =>
      cases p with
      | nothing =>
        cases hread
        cases h
        exact ⟨n, rfl, .field hfield⟩
      | chosen s =>
        obtain ⟨chosen, name⟩ := s
        cases chosen <;> cases hread
      | naming s =>
        cases hread
        obtain ⟨m, word, rfl, hchosen, hword⟩ := h
        exact .named hchosen hword hfield
      | named s => cases hread
    next hfield =>
      split at hread
      next hword =>
        cases p with
        | chosen s =>
          cases hread
          obtain ⟨m, rfl, hchosen⟩ := h
          exact ⟨m, n, rfl, hchosen, hword⟩
        | _ => cases hread
      next => cases hread

/-- A clause that is read to its end is a list of entries, of which the first may have begun before. -/
theorem listed_of_readNodes {p : Progress} {front ns : List Node} {ss : List Selection}
    (hfront : p.Spans scalar front) (h : readNodes scalar p ns = (ss, none)) :
    Listed (LooseEntry scalar) (front ++ ns) ss := by
  induction ns generalizing p front ss with
  | nil =>
    rw [List.append_nil]
    cases hs : p.finish? with
    | none =>
      rw [readNodes, hs] at h
      cases h
      cases p with
      | nothing =>
        cases hfront
        exact .nil
      | _ => cases hs
    | some s =>
      rw [readNodes, hs] at h
      cases h
      exact .last (hfront.looseEntry hs)
  | cons n ns ih =>
    rw [readNodes] at h
    split at h
    next hcomma =>
      cases hs : p.finish? with
      | none =>
        rw [hs] at h
        cases h
      | some s =>
        simp only [hs] at h
        obtain ⟨rfl, hfault⟩ := Prod.mk.inj h
        have hnone : Progress.nothing.Spans scalar [] := rfl
        exact .cons (hfront.looseEntry hs) hcomma (ih hnone (Prod.ext rfl hfault))
    next hcomma =>
      cases hn : readNode scalar p n with
      | error e =>
        rw [hn] at h
        cases h
      | ok p' =>
        rw [hn] at h
        have hrest := ih (hfront.readNode hn) h
        rw [List.append_assoc] at hrest
        exact hrest

section
variable {n : Node} {s : Selection} {ns : List Node}

private theorem readNodes_of_readNode {p p' : Progress} (hcomma : n.kind ≠ .comma)
    (h : readNode scalar p n = .ok p') (rest : List Node) :
    readNodes scalar p (n :: rest) = readNodes scalar p' rest := by
  rw [readNodes, if_neg hcomma, h]

/-- A field is neither a comma nor a call. -/
theorem ne_of_isField (h : isField n.kind = true) :
    n.kind ≠ .comma ∧ n.kind ≠ .functionGroup ∧ n.kind ≠ .asWord := by
  refine ⟨?_, ?_, ?_⟩
  all_goals
    intro hkind
    rw [hkind] at h
    cases h

private theorem readNode_field (h : isField n.kind = true) (p : Progress) :
    readNode scalar p n = readField n p := by
  unfold readNode
  rw [if_neg (ne_of_isField h).2.1, if_pos h]

private theorem readNode_as (h : n.kind = .asWord) (p : Progress) :
    readNode scalar p n = readAs n p := by
  unfold readNode
  rw [if_neg (by rw [h]; decide), if_neg (by rw [h]; decide), if_pos h]

theorem readNodes_chosen (h : Chooses scalar n s) (rest : List Node) :
    readNodes scalar .nothing (n :: rest) = readNodes scalar (.chosen s) rest := by
  cases h with
  | field kind => exact readNodes_of_readNode (ne_of_isField kind).1 (readNode_field kind _) rest
  | call kind reads =>
    refine readNodes_of_readNode (by rw [kind]; decide) ?_ rest
    rw [readNode, if_pos kind, reads]
    rfl

theorem readNodes_as (h : n.kind = .asWord) (s : Selection) (rest : List Node) :
    readNodes scalar (.chosen s) (n :: rest) = readNodes scalar (.naming s) rest :=
  readNodes_of_readNode (by rw [h]; decide) (readNode_as h _) rest

theorem readNodes_name (h : isField n.kind = true) (s : Selection) (rest : List Node) :
    readNodes scalar (.naming s) (n :: rest) =
      readNodes scalar (.named { s with name := n.unescaped }) rest :=
  readNodes_of_readNode (ne_of_isField h).1 (readNode_field h _) rest

/-- An entry is read as its selection, whatever follows. -/
theorem LooseEntry.readNodes_eq (h : LooseEntry scalar ns s) :
    ∃ p : Progress, p.finish? = some s ∧
      ∀ rest, readNodes scalar .nothing (ns ++ rest) = readNodes scalar p rest := by
  cases h with
  | complete entry =>
    cases entry with
    | plain chosen => exact ⟨.chosen s, rfl, readNodes_chosen chosen⟩
    | @named _ word name s chosen as kind =>
      refine ⟨.named { s with name := name.unescaped }, rfl, fun rest => ?_⟩
      rw [← readNodes_name kind s rest, ← readNodes_as as s (name :: rest),
        ← readNodes_chosen chosen (word :: name :: rest)]
      rfl
  | @unnamed _ word _ chosen as =>
    refine ⟨.naming s, rfl, fun rest => ?_⟩
    rw [← readNodes_as as s rest, ← readNodes_chosen chosen (word :: rest)]
    rfl

end

/-- What is read to its end is a list of entries, each complete but for a name. -/
theorem readNodes_eq_iff_listed {ns : List Node} {ss : List Selection} :
    readNodes scalar .nothing ns = (ss, none) ↔ Listed (LooseEntry scalar) ns ss := by
  constructor
  · have hnone : Progress.nothing.Spans scalar [] := rfl
    exact listed_of_readNodes hnone
  · intro h
    induction h with
    | nil => rfl
    | @last ns s h =>
      obtain ⟨p, hp, hread⟩ := h.readNodes_eq
      have hend := hread []
      rw [List.append_nil] at hend
      rw [hend, readNodes, hp]
      rfl
    | @cons ns rest c s ss h comma _ ih =>
      obtain ⟨p, hp, hread⟩ := h.readNodes_eq
      rw [hread, readNodes, if_pos comma]
      simp only [hp, ih]

theorem Listed.imp {entry entry' : List Node → Selection → Prop}
    (himp : ∀ ns s, entry ns s → entry' ns s) {ns : List Node} {ss : List Selection}
    (h : Listed entry ns ss) : Listed entry' ns ss := by
  induction h with
  | nil => exact .nil
  | last h => exact .last (himp _ _ h)
  | cons h comma _ ih => exact .cons (himp _ _ h) comma ih

section
variable {n : Node} {s : Selection} {ns : List Node}

private theorem Chooses.kind_ne (h : Chooses scalar n s) : n.kind ≠ .asWord := by
  cases h with
  | field kind => exact (ne_of_isField kind).2.2
  | call kind _ =>
    rw [kind]
    decide

/-- In a complete entry every `as` has a name after it, so that it does not end the entry. -/
theorem Entry.allNamed (h : Entry scalar ns s) : AllNamed ns := by
  cases h with
  | plain chosen => exact ⟨.singleton _, by simpa using chosen.kind_ne⟩
  | named chosen as kind =>
    obtain ⟨hcomma, -, has⟩ := ne_of_isField kind
    exact ⟨by simp [hcomma, chosen.kind_ne], by simpa using has⟩

end

private theorem allNamed_append_comma {ns rest : List Node} {c : Node} (hcomma : c.kind = .comma) :
    AllNamed (ns ++ c :: rest) ↔ AllNamed ns ∧ AllNamed rest := by
  have has : c.kind ≠ .asWord := by
    rw [hcomma]
    decide
  have hlast : (ns ++ c :: rest).getLast? = some (rest.getLast?.getD c) := by
    rw [List.getLast?_append, List.getLast?_cons, Option.some_or]
  constructor
  · rintro ⟨hinside, hend⟩
    obtain ⟨hns, hrest, hjoint⟩ := List.isChain_append.mp hinside
    refine ⟨⟨hns, ?_⟩, (List.isChain_cons.mp hrest).2, ?_⟩
    · intro n hn hkind
      exact hjoint n hn c rfl hkind hcomma
    · intro n hn
      rw [hlast, Option.mem_def.mp hn] at hend
      exact hend n rfl
  · rintro ⟨⟨hns, hnend⟩, hrest, hrend⟩
    refine ⟨List.isChain_append.mpr ⟨hns, List.isChain_cons.mpr ⟨?_, hrest⟩, ?_⟩, ?_⟩
    · intro n _ hkind
      exact absurd hkind has
    · intro n hn _ _ hkind
      exact absurd hkind (hnend n hn)
    · rw [hlast]
      cases hn : rest.getLast? with
      | none => simpa using has
      | some n => simpa using hrend n hn

/-- Entries are all complete exactly if no `as` stands at the end or before a comma. -/
theorem listed_entry_iff {ns : List Node} {ss : List Selection} :
    Listed (Entry scalar) ns ss ↔ Listed (LooseEntry scalar) ns ss ∧ AllNamed ns := by
  constructor
  · intro h
    refine ⟨h.imp fun _ _ => .complete, ?_⟩
    induction h with
    | nil => exact ⟨.nil, by simp⟩
    | last h => exact h.allNamed
    | cons h comma _ ih => exact (allNamed_append_comma comma).mpr ⟨h.allNamed, ih⟩
  · rintro ⟨h, hnamed⟩
    -- An entry that ends with `as` is not followed by a name.
    have hcomplete {ns : List Node} {s : Selection} (h : LooseEntry scalar ns s)
        (hnamed : AllNamed ns) : Entry scalar ns s := by
      cases h with
      | complete entry => exact entry
      | unnamed _ as => exact absurd as (hnamed.atEnd _ rfl)
    induction h with
    | nil => exact .nil
    | last h => exact .last (hcomplete h hnamed)
    | cons h comma _ ih =>
      obtain ⟨hfirst, hrest⟩ := (allNamed_append_comma comma).mp hnamed
      exact .cons (hcomplete h hfirst) comma (ih hrest)

end SelectClause

/-- A `select` clause is read to its end, and then its columns are added. -/
theorem Draft.readSelect_eq_ok_iff {ctx : Context} {d d' : Draft} {g : Group} :
    d.readSelect ctx g = .ok d' ↔
      ∃ ss, SelectClause.read (fun n => d.readScalar ctx g [n]) g = (ss, none) ∧
        Draft.addSelections ctx d {} ss = .ok d' := by
  rw [readSelect]
  cases hread : SelectClause.read (fun n => d.readScalar ctx g [n]) g with
  | mk ss fault =>
    constructor
    · intro h
      obtain ⟨d₁, hadd, hfault⟩ := bind_eq_ok.mp h
      cases fault with
      | some e => cases hfault
      | none =>
        cases hfault
        exact ⟨ss, rfl, hadd⟩
    · rintro ⟨ss', hss, hadd⟩
      cases hss
      exact bind_eq_ok.mpr ⟨d', hadd, rfl⟩

/-- The language of `select` clauses. A clause is accepted exactly if it is a list of entries, each of
them complete or ended by `as`, and the columns of their selections can be added. The entries are all
complete exactly if no `as` stands at the end or before a comma. -/
theorem select_language (ctx : Context) (d d' : Draft) (g : Group) :
    (d.readSelect ctx g = .ok d' ↔
      ∃ ss, SelectClause.Listed (SelectClause.LooseEntry fun n => d.readScalar ctx g [n])
          g.children ss ∧ Draft.addSelections ctx d {} ss = .ok d') ∧
    ∀ ss, SelectClause.Listed (SelectClause.Entry fun n => d.readScalar ctx g [n]) g.children ss ↔
      SelectClause.Listed (SelectClause.LooseEntry fun n => d.readScalar ctx g [n]) g.children ss ∧
        SelectClause.AllNamed g.children := by
  refine ⟨?_, fun ss => SelectClause.listed_entry_iff⟩
  simp only [← SelectClause.readNodes_eq_iff_listed]
  exact Draft.readSelect_eq_ok_iff

namespace SelectClause.Sample

def query : String := "from a select b as"

def clause : Group :=
  ⟨.clause ⟨.clause .select, query, ⟨7, 13⟩⟩, query, ⟨7, 18⟩,
    [.token ⟨.word, query, ⟨14, 15⟩⟩, .token ⟨.asWord, query, ⟨16, 18⟩⟩]⟩

end SelectClause.Sample

open SelectClause.Sample in
/-- An entry without the name that its `as` announces is accepted. -/
theorem as_without_name :
    (rootOf query).toOption.bind (·.children.getLast?) = some clause.toNode ∧
      (compile .sample query).isOk = true ∧
      ¬ ∃ scalar ss, SelectClause.Listed (SelectClause.Entry scalar) clause.children ss := by
  refine ⟨by decide +kernel, by decide +kernel, ?_⟩
  rintro ⟨scalar, ss, h⟩
  exact (SelectClause.listed_entry_iff.mp h).2.atEnd _ rfl rfl

end PipeQuery
