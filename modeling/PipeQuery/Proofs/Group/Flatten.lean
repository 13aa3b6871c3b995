import PipeQuery.Group.Structure
import PipeQuery.Token.Lexer

/-!
Flattening inverts structuring. The tokens that have been read are at every moment those of the
innermost level, after those of the levels around it; whatever ends a group keeps their order.
-/
namespace PipeQuery

private theorem Node.flattenList_append (ms ns : List Node) :
    Node.flattenList (ms ++ ns) = Node.flattenList ms ++ Node.flattenList ns := by
  induction ms with
  | nil => rfl
  | cons m ms ih => simp [Node.flattenList, ih]

/-- Nothing stands after the tokens inside of the group, so that more of them can be added. -/
def GroupKind.OpenEnded (k : GroupKind) : Prop := ∀ inside, k.wrap inside = k.wrap [] ++ inside

private theorem GroupKind.openEnded_pipe (bar command : Token) : (pipe bar command).OpenEnded :=
  fun _ => rfl

private theorem GroupKind.openEnded_clause (keyword : Token) : (clause keyword).OpenEnded :=
  fun _ => rfl

def Opening.tokens : Opening → List Token
  | .bracket opening => [opening]
  | .function name opening => [name, opening]

private theorem Opening.flatten_close (o : Opening) (closing : Token) (children : List Node) :
    (o.close closing children).flatten =
      o.tokens ++ Node.flattenList children ++ [closing] := by
  cases o with
  | bracket opening => rfl
  | function name opening => rfl

namespace Level

def flatten (l : Level) : List Token := Node.flattenList l.nodes

def OpenEnded (l : Level) : Prop := ∀ c, l.current = some c → c.kind.OpenEnded

private theorem flatten_empty : flatten {} = [] := rfl

private theorem openEnded_empty : OpenEnded {} := by
  intro c hc
  cases hc

private theorem openEnded_add {l : Level} (h : l.OpenEnded) (n : Node) : (l.add n).OpenEnded := by
  obtain ⟨done, current⟩ := l
  cases current with
  | none => exact h
  | some c =>
    rintro _ ⟨⟩
    exact h c rfl

private theorem openEnded_start (l : Level) {c : OpenClause} (h : c.kind.OpenEnded) :
    (l.start c).OpenEnded := by
  rintro _ ⟨⟩
  exact h

private theorem flatten_add {l : Level} (h : l.OpenEnded) (n : Node) :
    (l.add n).flatten = l.flatten ++ n.flatten := by
  obtain ⟨done, current⟩ := l
  cases current with
  | none => simp [flatten, add, nodes, Node.flattenList_append, Node.flattenList]
  | some c =>
    -- The node goes inside of the clause, whose tokens end with those of its last node.
    have hc (children : List Node) : (OpenClause.close { c with children }).flatten =
        c.kind.wrap [] ++ Node.flattenList children := h c rfl _
    simp [flatten, add, nodes, Node.flattenList_append, Node.flattenList, hc]

private theorem flatten_start (l : Level) (kind : GroupKind) (source : String) (span : Span) :
    (l.start ⟨kind, source, span, []⟩).flatten = l.flatten ++ kind.wrap [] := by
  simp [flatten, start, nodes, Node.flattenList_append, Node.flattenList, OpenClause.close,
    Group.cover, Group.toNode, Node.flatten]

/-- A token that neither frames a group nor starts one at this depth. -/
structure IsLeaf (outer : List (Opening × Level)) (t : Token) : Prop where
  not_close : t.kind ≠ .closeBracket
  not_open : t.kind ≠ .openBracket
  not_pipe : t.kind ≠ .pipe
  not_function : t.kind ≠ .functionName
  clause_inside : t.kind.isClause → outer ≠ []

/-- The readings that succeed, one token or one pair of tokens after the other. -/
inductive Reads : List (Opening × Level) → Level → List Token → List Node → Prop where
  | done (level : Level) : Reads [] level [] level.nodes
  | close {opening around outer level t ts nodes} (kind : t.kind = .closeBracket)
      (rest : Reads outer (around.add (opening.close t level.nodes)) ts nodes) :
      Reads ((opening, around) :: outer) level (t :: ts) nodes
  | pipe {outer level t c ts nodes} (kind : t.kind = .pipe) (command : c.kind = .command)
      (rest : Reads outer (level.start ⟨.pipe t c, t.source, t.span.join c.span, []⟩) ts nodes) :
      Reads outer level (t :: c :: ts) nodes
  | function {outer level t b ts nodes} (kind : t.kind = .functionName)
      (bracket : b.kind = .openBracket)
      (rest : Reads ((.function t b, level) :: outer) {} ts nodes) :
      Reads outer level (t :: b :: ts) nodes
  | bracket {outer level t ts nodes} (kind : t.kind = .openBracket)
      (rest : Reads ((.bracket t, level) :: outer) {} ts nodes) :
      Reads outer level (t :: ts) nodes
  | clause {level t ts nodes} (kind : t.kind.isClause)
      (rest : Reads [] (level.start ⟨.clause t, t.source, t.span, []⟩) ts nodes) :
      Reads [] level (t :: ts) nodes
  | leaf {outer level t ts nodes} (leaf : IsLeaf outer t)
      (rest : Reads outer (level.add (.token t)) ts nodes) :
      Reads outer level (t :: ts) nodes

theorem reads_of_read_eq_ok {outer : List (Opening × Level)} {level : Level} {ts : List Token}
    {nodes : List Node} (h : read outer level ts = .ok nodes) : Reads outer level ts nodes := by
  fun_induction read outer level ts with
  | case1 level =>
    cases h
    exact .done level
  | case2 | case3 | case5 | case7 | case8 | case10 => cases h
  | case4 level t ts ht opening around outer ih => exact .close ht (ih h)
  | case6 outer level t ht c ts hc ih => exact .pipe ht hc (ih h)
  | case9 outer level t ht b ts hb ih => exact .function ht hb (ih h)
  | case11 outer level t ts ht ih => exact .bracket ht (ih h)
  | case12 level t ts c ht ih => exact .clause (by simp [ht, TokenKind.isClause]) (ih h)
  | case13 level t ts c ht head tail ih => exact .leaf (by constructor <;> simp [ht]) (ih h)
  | case14 outer level t ts hclose hpipe hfun hopen hclause ih =>
    refine .leaf ⟨hclose, hopen, hpipe, hfun, ?_⟩ (ih h)
    intro hc
    cases hk : t.kind with
    | clause c => exact absurd hk (hclause c)
    | _ => simp [hk, TokenKind.isClause] at hc

/-- The tokens of the levels around the innermost one, up to the tokens that opened it. -/
def pending : List (Opening × Level) → List Token
  | [] => []
  | (opening, around) :: outer => pending outer ++ around.flatten ++ opening.tokens

/-- A reading keeps every token in its place: those already read stand before those to come. -/
theorem Reads.flatten_eq {outer : List (Opening × Level)} {level : Level} {ts : List Token}
    {nodes : List Node} (h : Reads outer level ts nodes) (hl : level.OpenEnded)
    (ho : ∀ p ∈ outer, p.2.OpenEnded) :
    Node.flattenList nodes = pending outer ++ level.flatten ++ ts := by
  induction h with
  | done level => simp [pending, flatten]
  | @close opening around outer level t ts nodes kind rest ih =>
    obtain ⟨haround, houter⟩ := List.forall_mem_cons.mp ho
    rw [ih (openEnded_add haround _) houter, flatten_add haround, Opening.flatten_close]
    simp [pending, flatten]
  | @pipe outer level t c ts nodes kind command rest ih =>
    rw [ih (openEnded_start level (GroupKind.openEnded_pipe t c)) ho, flatten_start]
    simp [GroupKind.wrap]
  | @function outer level t b ts nodes kind bracket rest ih =>
    rw [ih openEnded_empty (List.forall_mem_cons.mpr ⟨hl, ho⟩), flatten_empty]
    simp [pending, Opening.tokens]
  | @bracket outer level t ts nodes kind rest ih =>
    rw [ih openEnded_empty (List.forall_mem_cons.mpr ⟨hl, ho⟩), flatten_empty]
    simp [pending, Opening.tokens]
  | @clause level t ts nodes kind rest ih =>
    rw [ih (openEnded_start level (GroupKind.openEnded_clause t)) ho, flatten_start]
    simp [GroupKind.wrap]
  | @leaf outer level t ts nodes leaf rest ih =>
    rw [ih (openEnded_add hl _) ho, flatten_add hl]
    simp [Node.flatten]

end Level

/-- The tokens that are left when blanks and comments are taken out. -/
def Token.meaningful (tokens : List Token) : List Token :=
  tokens.filter fun t => !t.kind.isIgnorable

private theorem Token.meaningful_meaningful (tokens : List Token) :
    meaningful (meaningful tokens) = meaningful tokens := by
  simp [meaningful]

namespace Group

def sourceOf (tokens : List Token) : String := (tokens.head?.map (·.source)).getD ""

/-- Structuring depends on the meaningful tokens and on the text that all tokens are taken from. -/
theorem ofTokens_eq (tokens : List Token) :
    ofTokens tokens = (Level.read [] {} (Token.meaningful tokens)).map
      (cover .root (sourceOf tokens) (Token.extent (Token.meaningful tokens))) := by
  rw [ofTokens, ← Token.meaningful, ← sourceOf]
  cases Level.read [] {} (Token.meaningful tokens) with
  | error e => rfl
  | ok nodes => rfl

/-- A root has the nodes that were read from the meaningful tokens, and is widened to cover them. -/
theorem reads_of_ofTokens {tokens : List Token} {root : Group} (h : ofTokens tokens = .ok root) :
    ∃ nodes, Level.Reads [] {} (Token.meaningful tokens) nodes ∧
      root = cover .root (sourceOf tokens) (Token.extent (Token.meaningful tokens)) nodes := by
  rw [ofTokens_eq] at h
  cases hread : Level.read [] {} (Token.meaningful tokens) with
  | error e =>
    rw [hread] at h
    cases h
  | ok nodes =>
    rw [hread] at h
    cases h
    exact ⟨nodes, Level.reads_of_read_eq_ok hread, rfl⟩

theorem flatten_eq_meaningful {tokens : List Token} {root : Group} (h : ofTokens tokens = .ok root) :
    root.flatten = Token.meaningful tokens := by
  obtain ⟨nodes, hreads, rfl⟩ := reads_of_ofTokens h
  have hf := hreads.flatten_eq Level.openEnded_empty (by simp)
  rw [Level.flatten_empty] at hf
  exact hf

theorem sourceOf_eq {source : String} {tokens : List Token} (hs : ∀ t ∈ tokens, t.source = source)
    (hne : tokens ≠ []) : sourceOf tokens = source := by
  cases tokens with
  | nil => exact absurd rfl hne
  | cons t ts => exact hs t List.mem_cons_self

/-- The tokens of a structured query are those it was made from, without blanks and comments, and
structuring them again gives the same root. The root of a list of nothing but blanks and comments
keeps the text of these, which a list without tokens does not have. -/
theorem flatten_ofTokens {source : String} {tokens : List Token} {root : Group}
    (hs : ∀ t ∈ tokens, t.source = source) (h : ofTokens tokens = .ok root) :
    root.flatten = tokens.filter (fun t => !t.kind.isIgnorable) ∧
      ((∃ t ∈ tokens, t.kind.isIgnorable = false) ∨ tokens = [] →
        ofTokens root.flatten = .ok root) := by
  have hf := flatten_eq_meaningful h
  refine ⟨hf, ?_⟩
  intro hcase
  have hsource : sourceOf (Token.meaningful tokens) = sourceOf tokens := by
    rcases hcase with ⟨t, ht, hk⟩ | rfl
    · have hm : t ∈ Token.meaningful tokens := List.mem_filter.mpr ⟨ht, by simp [hk]⟩
      have hsm : ∀ t ∈ Token.meaningful tokens, t.source = source :=
        fun t ht => hs t (List.mem_filter.mp ht).1
      rw [sourceOf_eq hs (List.ne_nil_of_mem ht), sourceOf_eq hsm (List.ne_nil_of_mem hm)]
    · rfl
  rw [hf, ← h, ofTokens_eq, ofTokens_eq, Token.meaningful_meaningful, hsource]

def nestedText : String := "a|w f(|g where)//"

theorem flatten_ofTokens_nested :
    ∃ root, ofTokens (Lexer.tokens nestedText) = .ok root ∧
      root.flatten.map (·.slice) = ["a", "|", "w", "f", "(", "|", "g", "where", ")"] ∧
      ofTokens root.flatten = .ok root := by
  have hs : ∀ t ∈ Lexer.tokens nestedText, t.source = nestedText := by decide +kernel
  have hok : (ofTokens (Lexer.tokens nestedText)).isOk = true := by decide +kernel
  cases h : ofTokens (Lexer.tokens nestedText) with
  | error e =>
    rw [h] at hok
    cases hok
  | ok root =>
    obtain ⟨hf, hagain⟩ := flatten_ofTokens hs h
    refine ⟨root, rfl, ?_, hagain (.inl (by decide +kernel))⟩
    rw [hf]
    decide +kernel

end Group

end PipeQuery
