import PipeQuery.Proofs.Filter.Formula
import PipeQuery.Proofs.Filter.Value
import PipeQuery.Proofs.Token.Bounds

/-!
Conditions with two bounds. Every text that can be compared with can be an upper bound, and a lower
bound if it closes no bracket: the term then has both values. After a bracket in the lower bound the
`and` is a connective, and the condition is refused.
-/
namespace PipeQuery

def TokenKind.isOfValue : TokenKind → Bool
  | .word | .singleQuoted | .doubleQuoted | .number | .duration | .dateTime => true
  | .arith .add | .arith .subtract | .functionName | .openBracket | .closeBracket => true
  | .tokenGroup | .functionGroup => true
  | _ => false

private theorem TokenKind.not_clause_of_isOfValue {k : TokenKind} (h : k.isOfValue) :
    k ≠ .pipe ∧ k.isClause = false := by
  cases k <;> simp [isOfValue, isClause] at h ⊢

private theorem TokenKind.not_logic_of_isOfValue {k : TokenKind} (h : k.isOfValue) :
    k.isLogic = false ∧ k ≠ .inList := by
  cases k <;> simp [isOfValue, isLogic] at h ⊢

private theorem Formed.isOfValue {ts : List Token} {ns : List Node} (h : Formed ts ns)
    (hts : ∀ t ∈ ts, t.kind.isOfValue) : ∀ n ∈ ns, n.kind.isOfValue := by
  intro n hn
  rcases h.kinds n hn with ⟨t, ht, rfl⟩ | hgroup | hgroup
  · exact hts t ht
  · rw [hgroup]
    rfl
  · rw [hgroup]
    rfl

/-- A text of numbers, literals, words, dates, signs and calls. -/
def Lexer.IsValue (text : String) : Prop :=
  ∀ t ∈ tokens text, t.kind.isIgnorable ∨ t.kind.isOfValue

namespace Lexer.IsValue
variable {text : String}

private theorem isOfValue (h : IsValue text) :
    ∀ t ∈ Token.meaningful (tokens text), t.kind.isOfValue := by
  intro t ht
  obtain ⟨hmem, hmeans⟩ := List.mem_filter.mp ht
  rcases h t hmem with hignorable | hvalue
  · simp [hignorable] at hmeans
  · exact hvalue

private theorem holdsNoBounds (h : IsValue text) : HoldsNoBounds (pieces text.toList) := by
  intro p hp hkind
  have hmem : p.kind ∈ (tokens text).map (·.kind) := by
    rw [tokens, kinds_layout]
    exact List.mem_map_of_mem hp
  obtain ⟨t, ht, htp⟩ := List.mem_map.mp hmem
  have hvalue := h t ht
  rw [htp] at hvalue
  simp only [List.mem_cons, List.not_mem_nil, or_false] at hkind
  rcases hkind with hkind | hkind | hkind | hkind
  all_goals simp [hkind, TokenKind.isIgnorable, TokenKind.isOfValue] at hvalue

theorem exists_formed (h : IsValue text)
    (hstructured : Token.WellStructured 0 (Token.meaningful (tokens text))) :
    ∃ ns, Formed (Token.meaningful (tokens text)) ns :=
  Formed.of_wellStructured hstructured fun t ht =>
    TokenKind.not_clause_of_isOfValue (h.isOfValue t ht)

/-- The nodes of a value look the same wherever it stands. -/
theorem move {source : String} {front back : List Char} {ns : List Node} (h : IsValue text)
    (hformed : Formed (Token.meaningful (tokens text)) ns)
    (hsource : source.toList = front ++ (text.toList ++ back)) :
    ∃ ms, Formed ((Token.meaningful (tokens text)).map
        (Token.move source (Text.byteLength front))) ms ∧
      ns.map Node.view = ms.map Node.view ∧ ∀ n ∈ ms, n.kind.isOfValue := by
  obtain ⟨ms, hmoved, hviews⟩ := hformed.move hsource fun t ht =>
    inside_of_mem_tokens (List.mem_filter.mp ht).1
  refine ⟨ms, hmoved, hviews.views.symm, hmoved.isOfValue ?_⟩
  simpa [Token.move] using h.isOfValue

end Lexer.IsValue

namespace TermReader
variable {ctx : Context} {ns ms : List Node} {f c : Token}

private theorem isSeparator_of_isOfValue (h : ∀ n ∈ ns, n.kind.isOfValue) :
    ∀ n ∈ ns, isSeparator n = false := by
  intro n hn
  have hkind := h n hn
  rw [isSeparator, beq_eq_false_iff_ne]
  intro hseparator
  simp [hseparator, TokenKind.isOfValue] at hkind

private theorem takeWhile_eq_self (h : ∀ n ∈ ns, isSeparator n = false) :
    ns.takeWhile (!isSeparator ·) = ns := by
  induction ns with
  | nil => rfl
  | cons n ns ih =>
    obtain ⟨hn, hns⟩ := List.forall_mem_cons.mp h
    rw [List.takeWhile_cons_of_pos (by simp [hn]), ih hns]

private theorem dropWhile_eq_nil (h : ∀ n ∈ ns, isSeparator n = false) :
    ns.dropWhile (!isSeparator ·) = [] := by
  have happend := List.takeWhile_append_dropWhile (p := (!isSeparator ·)) (l := ns)
  rwa [takeWhile_eq_self h, List.append_right_eq_self] at happend

theorem readComparison_eq (h : ∀ n ∈ ns, isSeparator n = false) :
    readComparison ctx ns = readValue ctx ns := by
  rw [readComparison, takeWhile_eq_self h, dropWhile_eq_nil h]
  exact bind_pure _

/-- Bounds with a separator between them are read one after the other. -/
theorem readBounds_eq_ok {separator : Node} {lower upper : String}
    (hns : ∀ n ∈ ns, isSeparator n = false) (hms : ∀ n ∈ ms, isSeparator n = false)
    (hs : separator.kind = .betweenAnd) (hne : ms ≠ [])
    (hlower : readValue ctx ns = .ok lower) (hupper : readValue ctx ms = .ok upper)
    (condition : Node) :
    readBounds ctx condition (ns ++ separator :: ms) = .ok (lower ++ ", " ++ upper) := by
  have hsep : isSeparator separator = true := by simp [isSeparator, hs]
  have htake : (ns ++ separator :: ms).takeWhile (!isSeparator ·) = ns := by
    rw [List.takeWhile_append_of_pos (by simpa using hns)]
    simp [hsep]
  have hdrop : (ns ++ separator :: ms).dropWhile (!isSeparator ·) = separator :: ms := by
    rw [List.dropWhile_append_of_pos (by simpa using hns)]
    simp [hsep]
  rw [readBounds, htake, hdrop, hlower]
  simp [takeWhile_eq_self hms, dropWhile_eq_nil hms, hupper, hne, bind, Except.bind, pure,
    Except.pure]

/-- Without a separator the upper bound is missed after the last node. -/
theorem readBounds_eq_error {lower : String} (hns : ∀ n ∈ ns, isSeparator n = false)
    (hlower : readValue ctx ns = .ok lower) (condition : Node) :
    readBounds ctx condition ns =
      (ns.getLast?.getD condition).place.reject .missingBetweenAnd := by
  rw [readBounds, takeWhile_eq_self hns, dropWhile_eq_nil hns, hlower]
  rfl

section
variable {field : String} (hf : f.kind = .word) (hslice : f.slice = field)
include hf

theorem read_eq {condition : Condition} (hc : Condition.ofKind? c.kind = some condition) :
    read ctx (.token f :: .token c :: ns) =
      readValues ctx (.token f) (.token c) condition ns := by
  simp [read, Node.isString, Node.kind, hf, TokenKind.isString, hc]

include hslice

private theorem unescaped_field : (Node.token f).unescaped = field := by
  simp [Node.unescaped, Token.unescaped, hf, TokenKind.isQuoted, hslice]

/-- A comparison has the value after it. -/
theorem read_relation {r : Relation} (hc : c.kind = .relation r) (hne : ns ≠ [])
    (hns : ∀ n ∈ ns, isSeparator n = false) :
    read ctx (.token f :: .token c :: ns) =
      (readValue ctx ns).map fun x => ⟨field, .relation r, some (Text.trim x), none⟩ := by
  have hcondition : Condition.ofKind? c.kind = some (.relation r) := by
    rw [hc]
    rfl
  obtain ⟨n, rest, rfl⟩ := List.exists_cons_of_ne_nil hne
  rw [read_eq hf hcondition, ← unescaped_field hf hslice, ← readComparison_eq hns]
  rfl

/-- A condition with two bounds has the text of both. -/
theorem read_between (hc : c.kind = .between) (hne : ns ≠ []) :
    read ctx (.token f :: .token c :: ns) =
      (readBounds ctx (.token c) ns).map fun x => ⟨field, .between, some (Text.trim x), none⟩ := by
  have hcondition : Condition.ofKind? c.kind = some .between := by
    rw [hc]
    rfl
  obtain ⟨n, rest, rfl⟩ := List.exists_cons_of_ne_nil hne
  rw [read_eq hf hcondition, ← unescaped_field hf hslice]
  rfl

end

def valueOf (ctx : Context) (text : String) : Result String := do
  let root ← Result.ofExcept (Group.ofTokens (Lexer.tokens text))
  readValue ctx root.children

structure HasValue (ctx : Context) (text x : String) : Prop where
  isValue : Lexer.IsValue text
  nodes : ∃ ns, Formed (Token.meaningful (Lexer.tokens text)) ns ∧ ns ≠ [] ∧
    readValue ctx ns = .ok x

namespace HasValue
variable {text x : String}

private theorem valueOf_eq (h : HasValue ctx text x) : valueOf ctx text = .ok x := by
  obtain ⟨ns, hformed, -, hx⟩ := h.nodes
  obtain ⟨root, hroot, rfl⟩ := hformed.ofTokens_eq
  rw [valueOf, hroot]
  exact hx

/-- A text has its value wherever it stands. -/
theorem move {source : String} {front back : List Char} (h : HasValue ctx text x)
    (hdate : ctx.services.readDate = DateExpression.read)
    (hsource : source.toList = front ++ (text.toList ++ back)) :
    ∃ ms, Formed ((Token.meaningful (Lexer.tokens text)).map
        (Token.move source (Text.byteLength front))) ms ∧
      ms ≠ [] ∧ readValue ctx ms = .ok x ∧ ∀ n ∈ ms, n.kind.isOfValue := by
  obtain ⟨ns, hformed, hne, hx⟩ := h.nodes
  obtain ⟨ms, hmoved, hviews, hkinds⟩ := h.isValue.move hformed hsource
  refine ⟨ms, hmoved, ?_, readValue_congr hviews hdate hx, hkinds⟩
  rintro rfl
  exact hne (List.map_eq_nil_iff.mp hviews)

end HasValue

end TermReader

namespace FilterReader

section
variable {ctx : Context} {note : Bool} {nodes : List Node}

/-- Nodes that one term is read from, whether it is accepted or not. -/
structure IsPlain (nodes : List Node) : Prop where
  head : ∃ field rest, nodes = field :: rest ∧ field.bracket? = none
  no_logic : ∀ u, .token u ∈ nodes → u.kind.isLogic = false
  last_not_in : ∀ n, nodes.getLast? = some n → n.kind ≠ .inList

theorem IsPlain.readNodes_eq (h : IsPlain nodes) :
    readNodes ctx note {} nodes = pure ⟨[], nodes⟩ := by
  obtain ⟨⟨field, rest, rfl, hfield⟩, hlogic, -⟩ := h
  have hfirst : ∀ u, field = .token u → u.kind.isLogic = false :=
    fun u hu => hlogic u (by simp [hu])
  rw [readNodes, readNode_eq_push hfirst (.inr hfield), pure_bind,
    readNodes_eq_push (fun u hu => hlogic u (List.mem_cons_of_mem _ hu)) (by simp [Progress.push])]
  rfl

theorem endTerm_of_error {e : Failure SyntaxError} (h : TermReader.read ctx nodes = .error e)
    (hne : nodes ≠ []) (parts : List Part) :
    Progress.endTerm ctx note ⟨parts, nodes⟩ = throw e := by
  rw [Progress.endTerm, if_neg (by simpa using hne), h]
  rfl

/-- A condition without connectives is one term. -/
theorem IsPlain.run_read (h : IsPlain nodes) (names : List String) :
    ((read ctx note nodes).run.run names).1 =
      (TermReader.read ctx nodes).map fun t => ⟨.and, [.term t]⟩ := by
  cases hterm : TermReader.read ctx nodes with
  | error e =>
    obtain ⟨field, rest, rfl, -⟩ := h.head
    rw [read, h.readNodes_eq, pure_bind, Progress.finish,
      endTerm_of_error hterm (List.cons_ne_nil field rest)]
    rfl
  | ok t =>
    have hatom : IsAtom ctx nodes t := ⟨hterm, h.no_logic, h.last_not_in⟩
    have hcombine : Part.combine [.item (.term t)] = .ok ⟨.and, [.term t]⟩ := rfl
    have hreads : Reads ctx note nodes [.item (.term t)] := .atom hatom
    obtain ⟨names', hrun⟩ := hreads.yields_read hcombine names
    rw [hrun]
    rfl

/-- A term that is refused before a connective ends the reading. -/
theorem IsPlain.run_read_logic (h : IsPlain nodes) {s : Token} {op : Logic}
    (hs : s.kind = .logic op) {e : Failure SyntaxError}
    (hterm : TermReader.read ctx nodes = .error e) (rest : List Node)
    (names : List String) :
    ((read ctx note (nodes ++ .token s :: rest)).run.run names).1 = .error e := by
  obtain ⟨field, others, rfl, -⟩ := h.head
  have hafter : Progress.afterIn ⟨[], field :: others⟩ = false := by
    rw [Progress.afterIn, Option.any_eq_false]
    intro n hn
    simpa using h.last_not_in n hn
  have hnode : readNode ctx note ⟨[], field :: others⟩ (.token s) = throw e := by
    rw [readNode, hafter, if_neg Bool.false_ne_true, hs]
    simp only [endTerm_of_error hterm (List.cons_ne_nil field others)]
    rfl
  rw [read, readNodes_append, h.readNodes_eq, pure_bind, readNodes, hnode]
  rfl

end

def ofText (ctx : Context) (note : Bool) (names : List String) (text : String) :
    Result Operator := do
  let root ← Result.ofExcept (Group.ofTokens (Lexer.tokens text))
  ((read ctx note root.children).run.run names).1

section
variable {ctx : Context} {note : Bool} {names : List String} {ns : List Node}

private theorem ofText_eq {text : String} (h : Formed (Token.meaningful (Lexer.tokens text)) ns) :
    ofText ctx note names text = ((read ctx note ns).run.run names).1 := by
  obtain ⟨root, hroot, rfl⟩ := h.ofTokens_eq
  rw [ofText, hroot]
  rfl

/-- A field, a condition and nodes that are no connectives are read as one term. -/
theorem isPlain_cons {f c : Token} (hf : f.kind = .word)
    (hc : c.kind.isLogic = false ∧ c.kind ≠ .inList)
    (hns : ∀ n ∈ ns, n.kind.isLogic = false ∧ n.kind ≠ .inList) :
    IsPlain (.token f :: .token c :: ns) where
  head := ⟨_, _, rfl, rfl⟩
  no_logic := by
    intro u hu
    simp only [List.mem_cons, Node.token.injEq] at hu
    rcases hu with rfl | rfl | hu
    · rw [hf]
      rfl
    · exact hc.1
    · exact (hns _ hu).1
  last_not_in := by
    intro n hn
    rw [List.getLast?_cons_cons] at hn
    rcases List.mem_cons.mp (List.mem_of_getLast? hn) with rfl | hn
    · exact hc.2
    · exact (hns n hn).2

end

section
variable {ctx : Context} {note : Bool} {names : List String} {field text : String}
  (hfield : Lexer.pieces field.toList = [⟨.word, field.toList⟩])
  (hparam : ¬['$', '\x7b'] <:+: field.toList)
include hfield hparam

/-- The nodes of a comparison that is well structured. Those of its value look as they do in the
value alone. -/
theorem exists_comparison {value : String} {root : Group} (hvalue : Lexer.IsValue value)
    (htext : text.toList = field.toList ++ (' ' :: (">".toList ++ [' ']) ++ value.toList))
    (hroot : Group.ofTokens (Lexer.tokens text) = .ok root) :
    ∃ (f c : Token) (ns ms : List Node), f.kind = .word ∧ f.slice = field ∧
      c.kind = .relation .greater ∧ Formed (Token.meaningful (Lexer.tokens value)) ns ∧
      Formed (Token.meaningful (Lexer.tokens text)) (.token f :: .token c :: ms) ∧
      ns.map Node.view = ms.map Node.view ∧ ∀ n ∈ ms, n.kind.isOfValue := by
  have hpolish : Lexer.polish [⟨.unknown, ">".toList⟩] = [⟨.relation .greater, ">".toList⟩] := by
    decide +kernel
  obtain ⟨f, c, hf, hslice, hc, htokens⟩ := Lexer.meaningful_comparison hfield hparam
    Lexer.divides_greater hpolish (by simp) rfl htext
  have hfLeaf : Level.IsLeaf [] f := by constructor <;> simp [hf, TokenKind.isClause]
  have hcLeaf : Level.IsLeaf [] c := by constructor <;> simp [hc, TokenKind.isClause]
  have hstructured : Token.WellStructured 0 (Token.meaningful (Lexer.tokens value)) := by
    have hwell := (Group.exists_ofTokens_eq_ok_iff _).mp ⟨root, hroot⟩
    rw [htokens, Token.WellStructured.leaf_iff hfLeaf.1 hfLeaf.2 hfLeaf.3 hfLeaf.4,
      Token.WellStructured.leaf_iff hcLeaf.1 hcLeaf.2 hcLeaf.3 hcLeaf.4] at hwell
    refine (Token.wellStructured_congr ?_ 0).mp hwell
    rw [List.map_map]
    rfl
  have hplace : text.toList =
      field.toList ++ ' ' :: (">".toList ++ [' ']) ++ (value.toList ++ []) := by
    rw [htext, List.append_nil, List.append_assoc]
  obtain ⟨ns, hformed⟩ := hvalue.exists_formed hstructured
  obtain ⟨ms, hmoved, hviews, hkinds⟩ := hvalue.move hformed hplace
  refine ⟨f, c, ns, ms, hf, hslice, hc, hformed, ?_, hviews, hkinds⟩
  rw [htokens]
  exact .leaf hfLeaf (.leaf hcLeaf hmoved)

variable (hdate : ctx.services.readDate = DateExpression.read)
include hdate

/-- What a field can be compared with has a value. -/
theorem hasValue_of_comparison {value : String} {o : Operator} (hvalue : Lexer.IsValue value)
    (htext : text.toList = field.toList ++ (' ' :: (">".toList ++ [' ']) ++ value.toList))
    (hread : ofText ctx note names text = .ok o) :
    ∃ x, TermReader.HasValue ctx value x ∧
      o = ⟨.and, [.term ⟨field, .relation .greater, some (Text.trim x), none⟩]⟩ := by
  obtain ⟨root, hroot, -⟩ := bind_eq_ok.mp hread
  obtain ⟨f, c, ns, ms, hf, hslice, hc, hformed, hwhole, hviews, hkinds⟩ :=
    exists_comparison hfield hparam hvalue htext (Result.ofExcept_eq_ok.mp hroot)
  have hplain : IsPlain (.token f :: .token c :: ms) :=
    isPlain_cons hf (by simp [hc, TokenKind.isLogic]) fun n hn =>
      TokenKind.not_logic_of_isOfValue (hkinds n hn)
  have hcondition : Condition.ofKind? c.kind = some (.relation .greater) := by
    rw [hc]
    rfl
  rw [ofText_eq hwhole, hplain.run_read] at hread
  -- A comparison with nothing is refused, so there are nodes to have a value.
  have hne : ms ≠ [] := by
    rintro rfl
    rw [TermReader.read_eq hf hcondition] at hread
    cases hread
  rw [TermReader.read_relation hf hslice hc hne (TermReader.isSeparator_of_isOfValue hkinds)]
    at hread
  cases hx : TermReader.readValue ctx ms with
  | error e =>
    rw [hx] at hread
    cases hread
  | ok x =>
    rw [hx] at hread
    cases hread
    refine ⟨x, ⟨hvalue, ns, hformed, ?_, TermReader.readValue_congr hviews.symm hdate hx⟩, rfl⟩
    rintro rfl
    exact hne (List.map_eq_nil_iff.mp hviews.symm)

section
variable {lower upper x y : String} (hclosed : Lexer.Closed lower.toList)
  (hlower : TermReader.HasValue ctx lower x) (hupper : TermReader.HasValue ctx upper y)
  (htext : text.toList = field.toList ++ (' ' :: ("between".toList ++ [' ']) ++
    (lower.toList ++ (' ' :: ("and".toList ++ [' ']) ++ upper.toList))))
include hclosed hlower hupper htext

/-- The nodes of a condition with two bounds. -/
theorem exists_bounds :
    ∃ (f c s : Token) (ns ms : List Node), f.kind = .word ∧ f.slice = field ∧
      c.kind = .between ∧ s.kind = Lexer.separatorKind lower.toList ∧
      Formed (Token.meaningful (Lexer.tokens text))
        (.token f :: .token c :: (ns ++ .token s :: ms)) ∧
      (ns ≠ [] ∧ TermReader.readValue ctx ns = .ok x ∧ ∀ n ∈ ns, n.kind.isOfValue) ∧
      (ms ≠ [] ∧ TermReader.readValue ctx ms = .ok y ∧ ∀ n ∈ ms, n.kind.isOfValue) := by
  obtain ⟨f, c, s, hf, hslice, hc, hs, htokens⟩ :=
    Lexer.meaningful_bounds hfield hparam hclosed hlower.isValue.holdsNoBounds htext
  have hfLeaf : Level.IsLeaf [] f := by constructor <;> simp [hf, TokenKind.isClause]
  have hcLeaf : Level.IsLeaf [] c := by constructor <;> simp [hc, TokenKind.isClause]
  have hsLeaf : Level.IsLeaf [] s := by
    rw [Lexer.separatorKind] at hs
    split at hs
    all_goals constructor <;> simp [hs, TokenKind.isClause]
  have hfirst : text.toList = field.toList ++ ' ' :: ("between".toList ++ [' ']) ++
      (lower.toList ++ (' ' :: ("and".toList ++ [' ']) ++ upper.toList)) := by
    rw [htext, List.append_assoc]
  have hsecond : text.toList = field.toList ++ ' ' :: ("between".toList ++ [' ']) ++
      lower.toList ++ ' ' :: ("and".toList ++ [' ']) ++ (upper.toList ++ []) := by
    rw [hfirst, List.append_nil]
    simp only [List.append_assoc]
  obtain ⟨ns, hns, hx⟩ := hlower.move hdate hfirst
  obtain ⟨ms, hms, hy⟩ := hupper.move hdate hsecond
  refine ⟨f, c, s, ns, ms, hf, hslice, hc, hs, ?_, hx, hy⟩
  rw [htokens]
  exact .leaf hfLeaf (.leaf hcLeaf (hns.append (.leaf hsLeaf hms)))

/-- With a separator the condition is one term with both values. -/
theorem ofText_of_separator (hseparator : Lexer.separatorKind lower.toList = .betweenAnd) :
    ofText ctx note names text =
      .ok ⟨.and, [.term ⟨field, .between, some (Text.trim (x ++ ", " ++ y)), none⟩]⟩ := by
  obtain ⟨f, c, s, ns, ms, hf, hslice, hc, hs, hformed, ⟨-, hx, hns⟩, hne, hy, hms⟩ :=
    exists_bounds hfield hparam hdate hclosed hlower hupper htext
  rw [hseparator] at hs
  have hvalues : ∀ n ∈ ns ++ .token s :: ms, n.kind.isLogic = false ∧ n.kind ≠ .inList := by
    simp only [List.forall_mem_append, List.forall_mem_cons]
    refine ⟨fun n hn => TokenKind.not_logic_of_isOfValue (hns n hn), ?_,
      fun n hn => TokenKind.not_logic_of_isOfValue (hms n hn)⟩
    simp [Node.kind, hs, TokenKind.isLogic]
  have hplain : IsPlain (.token f :: .token c :: (ns ++ .token s :: ms)) :=
    isPlain_cons hf (by simp [hc, TokenKind.isLogic]) hvalues
  have hs : (Node.token s).kind = .betweenAnd := hs
  have hbounds := TermReader.readBounds_eq_ok (TermReader.isSeparator_of_isOfValue hns)
    (TermReader.isSeparator_of_isOfValue hms) hs hne hx hy (.token c)
  rw [ofText_eq hformed, hplain.run_read, TermReader.read_between hf hslice hc (by simp), hbounds]
  rfl

/-- With a connective instead the lower bound is all that the condition has. -/
theorem ofText_of_connective (hseparator : Lexer.separatorKind lower.toList = .logic .and) :
    ∃ place, ofText ctx note names text =
      .error (.rejected ⟨.missingBetweenAnd, some place⟩) := by
  obtain ⟨f, c, s, ns, ms, hf, hslice, hc, hs, hformed, ⟨hne, hx, hns⟩, -⟩ :=
    exists_bounds hfield hparam hdate hclosed hlower hupper htext
  rw [hseparator] at hs
  have hplain : IsPlain (.token f :: .token c :: ns) :=
    isPlain_cons hf (by simp [hc, TokenKind.isLogic]) fun n hn =>
      TokenKind.not_logic_of_isOfValue (hns n hn)
  have hbounds := TermReader.readBounds_eq_error (TermReader.isSeparator_of_isOfValue hns) hx
    (.token c)
  have hterm : TermReader.read ctx (.token f :: .token c :: ns) =
      (ns.getLast?.getD (.token c)).place.reject .missingBetweenAnd := by
    rw [TermReader.read_between hf hslice hc hne, hbounds]
    rfl
  exact ⟨_, (ofText_eq hformed).trans (hplain.run_read_logic hs hterm ms names)⟩

end

/-- Every value that a field can be compared with can be the upper bound of a `between`, and the
lower bound if it closes no bracket. The condition then is one term with the values of both bounds.
After a lower bound with a bracket the `and` is taken for a connective, and the upper bound is
missed. -/
theorem ofText_between {lower upper : String} {o₁ o₂ : Operator}
    (hclosed : Lexer.Closed lower.toList) (hlower : Lexer.IsValue lower)
    (hupper : Lexer.IsValue upper)
    (h₁ : ofText ctx note names (field ++ " > " ++ lower) = .ok o₁)
    (h₂ : ofText ctx note names (field ++ " > " ++ upper) = .ok o₂) :
    ∃ x₁ x₂, TermReader.valueOf ctx lower = .ok x₁ ∧ TermReader.valueOf ctx upper = .ok x₂ ∧
      o₁ = ⟨.and, [.term ⟨field, .relation .greater, some (Text.trim x₁), none⟩]⟩ ∧
      o₂ = ⟨.and, [.term ⟨field, .relation .greater, some (Text.trim x₂), none⟩]⟩ ∧
      ((∀ t ∈ Lexer.tokens lower, t.kind ≠ .closeBracket) →
        ofText ctx note names (field ++ " between " ++ lower ++ " and " ++ upper) =
          .ok ⟨.and, [.term ⟨field, .between, some (Text.trim (x₁ ++ ", " ++ x₂)), none⟩]⟩) ∧
      ((∃ t ∈ Lexer.tokens lower, t.kind = .closeBracket) →
        ∃ place, ofText ctx note names (field ++ " between " ++ lower ++ " and " ++ upper) =
          .error (.rejected ⟨.missingBetweenAnd, some place⟩)) := by
  have hcompared (value : String) : (field ++ " > " ++ value).toList =
      field.toList ++ (' ' :: (">".toList ++ [' ']) ++ value.toList) := by
    simp
  have hbetween : (field ++ " between " ++ lower ++ " and " ++ upper).toList =
      field.toList ++ (' ' :: ("between".toList ++ [' ']) ++
        (lower.toList ++ (' ' :: ("and".toList ++ [' ']) ++ upper.toList))) := by
    simp
  obtain ⟨x₁, hx₁, ho₁⟩ :=
    hasValue_of_comparison hfield hparam hdate hlower (hcompared lower) h₁
  obtain ⟨x₂, hx₂, ho₂⟩ :=
    hasValue_of_comparison hfield hparam hdate hupper (hcompared upper) h₂
  refine ⟨x₁, x₂, hx₁.valueOf_eq, hx₂.valueOf_eq, ho₁, ho₂, ?_, ?_⟩
  · intro hbracket
    refine ofText_of_separator hfield hparam hdate hclosed hx₁ hx₂ hbetween ?_
    rw [Lexer.separatorKind_eq, if_pos hbracket]
  · rintro ⟨t, ht, hkind⟩
    refine ofText_of_connective hfield hparam hdate hclosed hx₁ hx₂ hbetween ?_
    rw [Lexer.separatorKind_eq, if_neg fun hbracket => hbracket t ht hkind]

end

/-- A number and a date expression as bounds. -/
theorem ofText_between_sample :
    ofText .bare false [] "f between 2.5 and day() - 1d" =
      .ok ⟨.and, [.term ⟨"f", .between, some "2.5, day()-1d", none⟩]⟩ := by
  have hfield : Lexer.pieces "f".toList = [⟨.word, "f".toList⟩] := by decide +kernel
  have hclosed : Lexer.Closed "2.5".toList :=
    .quiet ⟨by decide, by decide, by decide, by decide, by decide⟩
  have hlower : Lexer.IsValue "2.5" := by
    unfold Lexer.IsValue
    decide +kernel
  have hupper : Lexer.IsValue "day() - 1d" := by
    unfold Lexer.IsValue
    decide +kernel
  have h₁ : ofText .bare false [] ("f" ++ " > " ++ "2.5") =
      .ok ⟨.and, [.term ⟨"f", .relation .greater, some "2.5", none⟩]⟩ :=
    eq_ok_of_toOption (by decide +kernel)
  have h₂ : ofText .bare false [] ("f" ++ " > " ++ "day() - 1d") =
      .ok ⟨.and, [.term ⟨"f", .relation .greater, some "day()-1d", none⟩]⟩ :=
    eq_ok_of_toOption (by decide +kernel)
  have hx : TermReader.valueOf .bare "2.5" = .ok "2.5" := eq_ok_of_toOption (by decide +kernel)
  have hy : TermReader.valueOf .bare "day() - 1d" = .ok "day()-1d" :=
    eq_ok_of_toOption (by decide +kernel)
  obtain ⟨x₁, x₂, hx₁, hx₂, -, -, hbetween, -⟩ :=
    ofText_between hfield (by decide) rfl hclosed hlower hupper h₁ h₂
  cases hx.symm.trans hx₁
  cases hy.symm.trans hx₂
  exact hbetween (by decide +kernel)

/-- Two values that can be compared with, and cannot be bounds in this order. -/
theorem between_call_rejected :
    ofText .bare false [] "f > day() - 1d" =
        .ok ⟨.and, [.term ⟨"f", .relation .greater, some "day()-1d", none⟩]⟩ ∧
      ofText .bare false [] "f > now()" =
        .ok ⟨.and, [.term ⟨"f", .relation .greater, some "now()", none⟩]⟩ ∧
      ofText .bare false [] "f between day() - 1d and now()" =
        .error (.rejected ⟨.missingBetweenAnd, some ⟨⟨18, 20⟩, "1d"⟩⟩) :=
  ⟨eq_ok_of_toOption (by decide +kernel), eq_ok_of_toOption (by decide +kernel),
    Result.eq_error_of_failure? (by decide +kernel)⟩

end FilterReader

end PipeQuery
