import PipeQuery.Filter.Reader
import PipeQuery.Group.Structure
import PipeQuery.Proofs.Filter.Combine
import PipeQuery.Proofs.Result
import PipeQuery.Token.Lexer

/-!
Conditions keep the meaning of the formula that they write down. `Written` relates a formula to all
the ways in which it can be written with `not` before `and` before `or`; reading any of them gives a
filter with the truth value of the formula.
-/
namespace PipeQuery

inductive Formula where
  | term (t : Term)
  | not (f : Formula)
  | and (f g : Formula)
  | or (f g : Formula)

def Formula.eval (v : Term → Bool) : Formula → Bool
  | .term t => v t
  | .not f => !f.eval v
  | .and f g => f.eval v && g.eval v
  | .or f g => f.eval v || g.eval v

/-- What a way of writing a formula can be an operand of, from the tightest on. -/
inductive Precedence where
  | operand
  | negation
  | conjunction
  | disjunction

/-- Nodes that are read as a term between connectives. A connective after an `in` would be taken for
its value. -/
structure IsAtom (ctx : Context) (nodes : List Node) (t : Term) : Prop where
  reads : TermReader.read ctx nodes = .ok t
  no_logic : ∀ u, .token u ∈ nodes → u.kind.isLogic = false
  last_not_in : ∀ n, nodes.getLast? = some n → n.kind ≠ .inList

/-- The ways to write a formula. Brackets may stand around any part of it, and must stand around an
operand that binds less tightly than its connective. -/
inductive Written (ctx : Context) : Precedence → Formula → List Node → Prop where
  | atom {t nodes} (atom : IsAtom ctx nodes t) : Written ctx .operand (.term t) nodes
  | bracket {f nodes} (opening closing : Token) (source : String) (span : Span)
      (inside : Written ctx .disjunction f nodes) :
      Written ctx .operand f [.group (.bracket opening closing) source span nodes]
  | not {t f nodes} (kind : t.kind = .logic .not) (operand : Written ctx .operand f nodes) :
      Written ctx .negation (.not f) (.token t :: nodes)
  | operand {f nodes} (operand : Written ctx .operand f nodes) : Written ctx .negation f nodes
  | and {t f g ns ms} (kind : t.kind = .logic .and) (left : Written ctx .conjunction f ns)
      (right : Written ctx .conjunction g ms) :
      Written ctx .conjunction (.and f g) (ns ++ .token t :: ms)
  | negation {f nodes} (negation : Written ctx .negation f nodes) :
      Written ctx .conjunction f nodes
  | or {t f g ns ms} (kind : t.kind = .logic .or) (left : Written ctx .disjunction f ns)
      (right : Written ctx .disjunction g ms) :
      Written ctx .disjunction (.or f g) (ns ++ .token t :: ms)
  | conjunction {f nodes} (conjunction : Written ctx .conjunction f nodes) :
      Written ctx .disjunction f nodes

namespace FilterReader

section
variable {ctx : Context} {note : Bool}

private theorem yields_endTerm_nil (parts : List Part) :
    Yields (Progress.endTerm ctx note ⟨parts, []⟩) ⟨parts, []⟩ := .pure _

private theorem yields_endTerm {nodes : List Node} {t : Term}
    (h : TermReader.read ctx nodes = .ok t) (parts : List Part) :
    Yields (Progress.endTerm ctx note ⟨parts, nodes⟩) ⟨parts ++ [.item (.term t)], []⟩ := by
  cases nodes with
  | nil => simp [TermReader.read] at h
  | cons n ns =>
    rw [Progress.endTerm, List.isEmpty_cons, if_neg Bool.false_ne_true, h]
    cases note with
    | false => exact fun names => ⟨names, rfl⟩
    | true => exact fun names => ⟨names ++ TermReader.referredNames (n :: ns), rfl⟩

theorem readNodes_append (p : Progress) (ns ms : List Node) :
    readNodes ctx note p (ns ++ ms) = readNodes ctx note p ns >>= (readNodes ctx note · ms) := by
  induction ns generalizing p with
  | nil => simp [readNodes]
  | cons n ns ih => simp [readNodes, ih]

/-- A node that is no connective belongs to the term before it, and starts a term unless it is a
bracket. -/
theorem readNode_eq_push {p : Progress} {n : Node}
    (hlogic : ∀ u, n = .token u → u.kind.isLogic = false)
    (hbracket : p.term ≠ [] ∨ n.bracket? = none) : readNode ctx note p n = pure (p.push n) := by
  cases n with
  | token t =>
    have ht := hlogic t rfl
    rw [readNode]
    split
    · rfl
    · split
      next op hk => simp [hk, TokenKind.isLogic] at ht
      next => rfl
  | group kind source span children =>
    cases kind with
    | bracket opening closing =>
      have hp : p.term ≠ [] := by simpa [Node.bracket?] using hbracket
      rw [readNode, if_neg (by simpa using hp)]
    | _ => simp [readNode]

theorem readNodes_eq_push {p : Progress} {ns : List Node}
    (hlogic : ∀ u, .token u ∈ ns → u.kind.isLogic = false) (hp : p.term ≠ []) :
    readNodes ctx note p ns = pure { p with term := p.term ++ ns } := by
  induction ns generalizing p with
  | nil => simp [readNodes]
  | cons n ns ih =>
    have hn : ∀ u, n = .token u → u.kind.isLogic = false := fun u hu => hlogic u (by simp [hu])
    have hns : ∀ u, .token u ∈ ns → u.kind.isLogic = false :=
      fun u hu => hlogic u (List.mem_cons_of_mem _ hu)
    rw [readNodes, readNode_eq_push hn (.inl hp), pure_bind, ih hns (by simp [Progress.push])]
    simp [Progress.push]

/-- A term starts with a field, which is never a bracket. -/
theorem exists_cons_of_read_eq_ok {nodes : List Node} {t : Term}
    (h : TermReader.read ctx nodes = .ok t) :
    ∃ field rest, nodes = field :: rest ∧ field.bracket? = none := by
  cases nodes with
  | nil => simp [TermReader.read] at h
  | cons field rest =>
    refine ⟨field, rest, rfl, ?_⟩
    cases field with
    | token u => rfl
    | group kind source span children =>
      cases kind with
      | bracket opening closing =>
        simp [TermReader.read, Node.isString, Node.kind, GroupKind.tokenKind, TokenKind.isString,
          Place.reject] at h
      | _ => rfl

/-- The nodes are read to the parts when they stand at the start of a condition or after a
connective. The last term may still be open, but a connective after it ends it. -/
def Reads (ctx : Context) (note : Bool) (nodes : List Node) (ps : List Part) : Prop :=
  ∀ parts, ∃ p, Yields (readNodes ctx note ⟨parts, []⟩ nodes) p ∧ p.afterIn = false ∧
    Yields (p.endTerm ctx note) ⟨parts ++ ps, []⟩

namespace Reads

theorem nil : Reads ctx note [] [] := by
  intro parts
  refine ⟨⟨parts, []⟩, .pure _, rfl, ?_⟩
  rw [List.append_nil]
  exact yields_endTerm_nil parts

theorem atom {nodes : List Node} {t : Term} (h : IsAtom ctx nodes t) :
    Reads ctx note nodes [.item (.term t)] := by
  intro parts
  refine ⟨⟨parts, nodes⟩, ?_, ?_, yields_endTerm h.reads parts⟩
  · obtain ⟨field, rest, rfl, hfield⟩ := exists_cons_of_read_eq_ok h.reads
    have hlogic : ∀ u, field = .token u → u.kind.isLogic = false :=
      fun u hu => h.no_logic u (by simp [hu])
    have hrest : ∀ u, .token u ∈ rest → u.kind.isLogic = false :=
      fun u hu => h.no_logic u (List.mem_cons_of_mem _ hu)
    rw [readNodes, readNode_eq_push hlogic (.inr hfield), pure_bind,
      readNodes_eq_push hrest (by simp [Progress.push])]
    exact .pure _
  · cases hl : nodes.getLast? with
    | none => simp [Progress.afterIn, hl]
    | some n => simpa [Progress.afterIn, hl] using h.last_not_in n hl

theorem bracket {nodes : List Node} {op : Operator} (h : Yields (read ctx note nodes) op)
    (opening closing : Token) (source : String) (span : Span) :
    Reads ctx note [.group (.bracket opening closing) source span nodes] [.item op.toItem] := by
  intro parts
  refine ⟨⟨parts ++ [.item op.toItem], []⟩, ?_, rfl, yields_endTerm_nil _⟩
  have hread : readNodes ctx note ⟨parts, []⟩ [.group (.bracket opening closing) source span nodes] =
      read ctx note nodes >>= fun inner => pure ⟨parts ++ [.item inner.toItem], []⟩ := by
    simp [readNodes, readNode, read]
  rw [hread]
  exact h.bind (.pure _)

/-- Operands with a connective between them. -/
theorem joined {op : Logic} {t : Token} {ns ms : List Node} {ps qs : List Part}
    (ht : t.kind = .logic op) (hn : Reads ctx note ns ps) (hm : Reads ctx note ms qs) :
    Reads ctx note (ns ++ .token t :: ms) (ps ++ .logic op t.place :: qs) := by
  intro parts
  obtain ⟨p, hp, hin, hend⟩ := hn parts
  obtain ⟨q, hq, hq_in, hq_end⟩ := hm (parts ++ ps ++ [.logic op t.place])
  refine ⟨q, ?_, hq_in, by simpa using hq_end⟩
  have hlogic : Yields (readNode ctx note p (.token t)) ⟨parts ++ ps ++ [.logic op t.place], []⟩ := by
    rw [readNode, if_neg (by simp [hin]), ht]
    exact hend.bind (.pure _)
  rw [readNodes_append]
  refine hp.bind ?_
  rw [readNodes]
  exact hlogic.bind hq

/-- The parts of the nodes of a whole condition are combined. -/
theorem yields_read {nodes : List Node} {ps : List Part} {op : Operator}
    (h : Reads ctx note nodes ps) (hc : Part.combine ps = .ok op) :
    Yields (read ctx note nodes) op := by
  obtain ⟨p, hp, -, hend⟩ := h []
  have hfinish : Yields (p.finish ctx note) op := by
    refine hend.bind ?_
    rw [List.nil_append, hc]
    exact .pure _
  exact hp.bind hfinish

end Reads

end

/-- What reading a way of writing a formula comes to, by what it can be an operand of: an item, parts
that are negated to an item, one run of items, or runs of items. -/
def Compiles (ctx : Context) (note : Bool) : Precedence → Formula → List Node → Prop
  | .operand, f, nodes => ∃ i, Reads ctx note nodes [.item i] ∧ ∀ v, i.meaning v = some (f.eval v)
  | .negation, f, nodes => ∃ ps i, Reads ctx note nodes ps ∧ Part.Negates ps [.item i] ∧
      ∀ v, i.meaning v = some (f.eval v)
  | .conjunction, f, nodes => ∃ ps qs run, Reads ctx note nodes ps ∧ Part.Negates ps qs ∧
      Part.IsRun qs run ∧ ∀ v, Logic.and.join (Item.meanings v run) = some (f.eval v)
  | .disjunction, f, nodes => ∃ ps qs rs, Reads ctx note nodes ps ∧ Part.Negates ps qs ∧
      Part.AreRuns qs rs ∧ ∀ v, Part.runsMeaning v rs = some (f.eval v)

/-- A whole condition is read to a simplified filter that means the formula. -/
theorem Compiles.exists_yields {ctx : Context} {note : Bool} {f : Formula} {nodes : List Node}
    (h : Compiles ctx note .disjunction f nodes) :
    ∃ o : Operator, Yields (read ctx note nodes) o.simplify ∧
      ∀ v, o.meaning v = some (f.eval v) := by
  obtain ⟨ps, qs, rs, hreads, hneg, hruns, hval⟩ := h
  refine ⟨Part.joinRuns rs, hreads.yields_read (Part.combine_eq hneg hruns), ?_⟩
  intro v
  rw [Part.meaning_joinRuns, hval]

/-- Every way of writing a formula is read, by induction on how it is written. -/
theorem compiles_of_written {ctx : Context} (note : Bool) {prec : Precedence} {f : Formula}
    {nodes : List Node} (h : Written ctx prec f nodes) : Compiles ctx note prec f nodes := by
  induction h with
  | @atom t nodes atom => exact ⟨.term t, .atom atom, fun v => rfl⟩
  | @bracket f nodes opening closing source span inside ih =>
    obtain ⟨o, hread, hval⟩ := ih.exists_yields
    refine ⟨o.simplify.toItem, .bracket hread opening closing source span, ?_⟩
    intro v
    rw [← Operator.meaning, Operator.meaning_simplify, hval]
  | @not t f nodes kind operand ih =>
    obtain ⟨i, hreads, hval⟩ := ih
    refine ⟨_, .operator .not [i], Reads.nil.joined kind hreads, .not_item t.place i, ?_⟩
    intro v
    simp [Item.meaning, Item.meanings, hval, Logic.join, Logic.value, Formula.eval]
  | operand operand ih =>
    obtain ⟨i, hreads, hval⟩ := ih
    exact ⟨_, i, hreads, .item i, hval⟩
  | @and t f g ns ms kind left right ihf ihg =>
    obtain ⟨ps, qs, run, hreads, hneg, hrun, hval⟩ := ihf
    obtain ⟨ps', qs', run', hreads', hneg', hrun', hval'⟩ := ihg
    refine ⟨_, _, _, hreads.joined kind hreads', hneg.joined (by decide) t.place hneg',
      hrun.and hrun' t.place, ?_⟩
    intro v
    rw [Item.meanings_append, Logic.join_append (by decide) (hval v) (hval' v)]
    simp [Logic.value, Formula.eval]
  | negation negation ih =>
    obtain ⟨ps, i, hreads, hneg, hval⟩ := ih
    refine ⟨_, _, [i], hreads, hneg, .item i, ?_⟩
    intro v
    rw [Item.meanings_singleton, Logic.join_toList (by decide), hval]
  | @or t f g ns ms kind left right ihf ihg =>
    obtain ⟨ps, qs, rs, hreads, hneg, hruns, hval⟩ := ihf
    obtain ⟨ps', qs', rs', hreads', hneg', hruns', hval'⟩ := ihg
    refine ⟨_, _, _, hreads.joined kind hreads', hneg.joined (by decide) t.place hneg',
      hruns.or hruns' t.place, ?_⟩
    intro v
    rw [Part.runsMeaning, List.map_append, Item.meanings_append,
      Logic.join_append (by decide) (hval v) (hval' v)]
    simp [Logic.value, Formula.eval]
  | conjunction conjunction ih =>
    obtain ⟨ps, qs, run, hreads, hneg, hrun, hval⟩ := ih
    refine ⟨_, _, [run], hreads, hneg, hrun.areRuns, ?_⟩
    intro v
    rw [Part.runsMeaning, List.map_singleton, Item.meanings_singleton,
      Logic.join_toList (by decide), Item.meaning, hval]

/-- Reading a condition accepts every way of writing a formula, and the filter that it gives has the
truth value of the formula for every assignment of truth values to terms. -/
theorem read_written {ctx : Context} {f : Formula} {nodes : List Node}
    (h : Written ctx .disjunction f nodes) (note : Bool) (names : List String) :
    ∃ op names', (read ctx note nodes).run.run names = (.ok op, names') ∧
      ∀ v, op.eval v = f.eval v := by
  obtain ⟨o, hread, hval⟩ := (compiles_of_written note h).exists_yields
  obtain ⟨names', hnames⟩ := hread names
  exact ⟨o.simplify, names', hnames, fun v => Operator.eval_simplify (hval v)⟩

namespace Sample

def text : String := "not (a = 1 or b in (2)) and ((c is null))"

def token (kind : TokenKind) (start stop : Nat) : Node := .token ⟨kind, text, ⟨start, stop⟩⟩

def bracket (start stop : Nat) (children : List Node) : Node :=
  .group (.bracket ⟨.openBracket, text, ⟨start, start + 1⟩⟩ ⟨.closeBracket, text, ⟨stop - 1, stop⟩⟩)
    text ⟨start, stop⟩ children

def equality : List Node :=
  [token .word 5 6, token (.relation .equal) 7 8, token .number 9 10]

def membership : List Node :=
  [token .word 14 15, token .inList 16 18, bracket 19 22 [token .number 20 21]]

def nullTest : List Node := [token .word 30 31, token .isNull 32 39]

def nodes : List Node :=
  [token (.logic .not) 0 3, bracket 4 23 (equality ++ token (.logic .or) 11 13 :: membership)] ++
    token (.logic .and) 24 27 :: [bracket 28 41 [bracket 29 40 nullTest]]

end Sample

open Sample in
/-- The nodes are those of the text, and their filter is the negated disjunction and the last term. -/
theorem read_written_sample :
    (Group.ofTokens (Lexer.tokens text)).toOption.map (·.children) = some nodes ∧
      ∃ op names', (read .bare true nodes).run.run [] = (.ok op, names') ∧
        ∀ v, op.eval v = (!(v ⟨"a", .relation .equal, some "1", none⟩ ||
          v ⟨"b", .inList, some "2", none⟩) && v ⟨"c", .isNull, none, none⟩) := by
  have ha : IsAtom .bare equality ⟨"a", .relation .equal, some "1", none⟩ :=
    ⟨rfl, by simp [equality, token, TokenKind.isLogic], by simp [equality, token, Node.kind]⟩
  have hb : IsAtom .bare membership ⟨"b", .inList, some "2", none⟩ :=
    ⟨rfl, by simp [membership, token, bracket, TokenKind.isLogic],
      by simp [membership, bracket, Node.kind, GroupKind.tokenKind]⟩
  have hc : IsAtom .bare nullTest ⟨"c", .isNull, none, none⟩ :=
    ⟨rfl, by simp [nullTest, token, TokenKind.isLogic], by simp [nullTest, token, Node.kind]⟩
  have term {t : Term} {ns : List Node} (h : IsAtom .bare ns t) :
      Written .bare .disjunction (.term t) ns :=
    .conjunction (.negation (.operand (.atom h)))
  have hor : Written .bare .disjunction _ (equality ++ token (.logic .or) 11 13 :: membership) :=
    .or rfl (term ha) (term hb)
  have hnot : Written .bare .negation _ [token (.logic .not) 0 3, bracket 4 23 _] :=
    .not rfl (.bracket _ _ _ _ hor)
  have hinner : Written .bare .operand _ [bracket 29 40 nullTest] := .bracket _ _ _ _ (term hc)
  have houter : Written .bare .operand _ [bracket 28 41 _] :=
    .bracket _ _ _ _ (.conjunction (.negation (.operand hinner)))
  have hand : Written .bare .conjunction _ nodes :=
    .and rfl (.negation hnot) (.negation (.operand houter))
  exact ⟨by decide +kernel, read_written (.conjunction hand) true []⟩

end FilterReader

end PipeQuery
