import PipeQuery.Proofs.Clause.Entry
import PipeQuery.Proofs.Draft.Walk
import PipeQuery.Proofs.Error.Conditions
import PipeQuery.Proofs.Time.Overflow

/-!
Where the arithmetic of dates ends a run: only at a date expression among the nodes of the query.
Whatever else is wrong with a query is refused.
-/
namespace PipeQuery

def GroupKind.StartsRight : GroupKind → Prop
  | .clause keyword => keyword.kind.isClause
  | _ => True

inductive Node.MadeOf (tokens : List Token) : Node → Prop where
  | token {t : Token} (mem : t ∈ tokens) : MadeOf tokens (.token t)
  | group {kind : GroupKind} {source : String} {span : Span} {children : List Node}
      (start : kind.StartsRight) (frame : ∀ t ∈ kind.wrap [], t ∈ tokens)
      (inside : ∀ n ∈ children, MadeOf tokens n) : MadeOf tokens (.group kind source span children)

section
variable {tokens : List Token}

/-- A duration is a token, since no keyword is one. -/
theorem Node.MadeOf.exists_token {n : Node} (h : n.MadeOf tokens) (hkind : n.kind = .duration) :
    ∃ t ∈ tokens, n = .token t ∧ t.kind = .duration := by
  cases h with
  | token mem => exact ⟨_, mem, rfl, hkind⟩
  | @group kind source span children start frame inside =>
    cases kind with
    | clause keyword =>
      have hkeyword : keyword.kind = .duration := hkind
      simp [GroupKind.StartsRight, hkeyword, TokenKind.isClause] at start
    | _ => cases hkind

private theorem Group.madeOf_cover (kind : GroupKind) {children : List Node}
    (start : kind.StartsRight) (frame : ∀ t ∈ kind.wrap [], t ∈ tokens)
    (inside : ∀ n ∈ children, n.MadeOf tokens) (source : String) (span : Span) :
    (cover kind source span children).toNode.MadeOf tokens :=
  .group start frame inside

private theorem Opening.madeOf_close {o : Opening} (ho : ∀ t ∈ o.tokens, t ∈ tokens)
    {closing : Token} (hc : closing ∈ tokens) {children : List Node}
    (h : ∀ n ∈ children, n.MadeOf tokens) : (o.close closing children).MadeOf tokens := by
  cases o with
  | bracket opening =>
    have hframe : ∀ t ∈ [opening, closing], t ∈ tokens := by
      simpa [Opening.tokens, hc] using ho
    exact Group.madeOf_cover (.bracket opening closing) trivial hframe h _ _
  | function name opening =>
    have hframe : ∀ t ∈ [name, opening, closing], t ∈ tokens := by
      simpa [Opening.tokens, hc] using ho
    exact Group.madeOf_cover (.function name opening closing) trivial hframe h _ _

namespace Level

private theorem madeOf_add {l : Level} (h : ∀ m ∈ l.nodes, m.MadeOf tokens) {n : Node}
    (hn : n.MadeOf tokens) : ∀ m ∈ (l.add n).nodes, m.MadeOf tokens := by
  obtain ⟨done, current⟩ := l
  cases current with
  | none => exact List.forall_mem_append.mpr ⟨h, List.forall_mem_singleton.mpr hn⟩
  | some c =>
    obtain ⟨hdone, hc⟩ := List.forall_mem_append.mp h
    cases List.forall_mem_singleton.mp hc with
    | group start frame inside =>
      have hinside := List.forall_mem_append.mpr ⟨inside, List.forall_mem_singleton.mpr hn⟩
      refine List.forall_mem_append.mpr ⟨hdone, List.forall_mem_singleton.mpr ?_⟩
      exact .group start frame hinside

private theorem madeOf_start {l : Level} (h : ∀ m ∈ l.nodes, m.MadeOf tokens) {c : OpenClause}
    (hc : c.close.MadeOf tokens) : ∀ m ∈ (l.start c).nodes, m.MadeOf tokens :=
  List.forall_mem_append.mpr ⟨h, List.forall_mem_singleton.mpr hc⟩

private theorem madeOf_empty : ∀ n ∈ nodes {}, n.MadeOf tokens := by
  simp [nodes]

private theorem Reads.madeOf {outer : List (Opening × Level)} {level : Level} {ts : List Token}
    {nodes : List Node} (h : Reads outer level ts nodes) (hts : ∀ t ∈ ts, t ∈ tokens)
    (hlevel : ∀ n ∈ level.nodes, n.MadeOf tokens)
    (houter : ∀ p ∈ outer, (∀ t ∈ p.1.tokens, t ∈ tokens) ∧ ∀ n ∈ p.2.nodes, n.MadeOf tokens) :
    ∀ n ∈ nodes, n.MadeOf tokens := by
  induction h with
  | done level => exact hlevel
  | close kind rest ih =>
    obtain ⟨⟨hopening, haround⟩, houter⟩ := List.forall_mem_cons.mp houter
    obtain ⟨ht, hts⟩ := List.forall_mem_cons.mp hts
    exact ih hts (madeOf_add haround (Opening.madeOf_close hopening ht hlevel)) houter
  | @pipe outer level t c ts nodes kind command rest ih =>
    obtain ⟨ht, hts⟩ := List.forall_mem_cons.mp hts
    obtain ⟨hc, hts⟩ := List.forall_mem_cons.mp hts
    have hframe : ∀ u ∈ [t, c], u ∈ tokens := by simp [ht, hc]
    refine ih hts (madeOf_start hlevel ?_) houter
    exact Group.madeOf_cover (.pipe t c) trivial hframe (by simp) _ _
  | @function outer level t b ts nodes kind bracket rest ih =>
    obtain ⟨ht, hts⟩ := List.forall_mem_cons.mp hts
    obtain ⟨hb, hts⟩ := List.forall_mem_cons.mp hts
    have hframe : ∀ u ∈ [t, b], u ∈ tokens := by simp [ht, hb]
    exact ih hts madeOf_empty (List.forall_mem_cons.mpr ⟨⟨hframe, hlevel⟩, houter⟩)
  | @bracket outer level t ts nodes kind rest ih =>
    obtain ⟨ht, hts⟩ := List.forall_mem_cons.mp hts
    have hframe : ∀ u ∈ [t], u ∈ tokens := by simp [ht]
    exact ih hts madeOf_empty (List.forall_mem_cons.mpr ⟨⟨hframe, hlevel⟩, houter⟩)
  | @clause level t ts nodes kind rest ih =>
    obtain ⟨ht, hts⟩ := List.forall_mem_cons.mp hts
    have hframe : ∀ u ∈ [t], u ∈ tokens := by simp [ht]
    refine ih hts (madeOf_start hlevel ?_) houter
    exact Group.madeOf_cover (.clause t) kind hframe (by simp) _ _
  | leaf leaf rest ih =>
    obtain ⟨ht, hts⟩ := List.forall_mem_cons.mp hts
    exact ih hts (madeOf_add hlevel (.token ht)) houter

end Level

private theorem Group.madeOf_of_ofTokens {root : Group} (h : ofTokens tokens = .ok root) :
    ∀ n ∈ root.children, n.MadeOf tokens := by
  obtain ⟨nodes, hreads, rfl⟩ := reads_of_ofTokens h
  refine hreads.madeOf ?_ Level.madeOf_empty (by simp)
  intro t ht
  exact (List.mem_filter.mp ht).1

/-- The nodes are those at the top of the group, or those of a group inside of it. -/
inductive Group.Holds (root : Group) : List Node → Prop where
  | top : Holds root root.children
  | inside {around children : List Node} {kind : GroupKind} {source : String} {span : Span}
      (holds : Holds root around) (mem : .group kind source span children ∈ around) :
      Holds root children

/-- The nodes follow each other at the top of the group or of a group inside of it. -/
def Group.Contains (root : Group) (nodes : List Node) : Prop :=
  ∃ around, root.Holds around ∧ nodes <:+: around

namespace Group.Contains
variable {root : Group} {nodes : List Node}

theorem part (h : root.Contains nodes) {part : List Node} (hpart : part <:+: nodes) :
    root.Contains part := by
  obtain ⟨around, hholds, hnodes⟩ := h
  exact ⟨around, hholds, hpart.trans hnodes⟩

theorem inside (h : root.Contains nodes) {kind : GroupKind} {source : String} {span : Span}
    {children : List Node} (hmem : .group kind source span children ∈ nodes) :
    root.Contains children := by
  obtain ⟨around, hholds, hnodes⟩ := h
  exact ⟨children, hholds.inside (hnodes.subset hmem), List.infix_rfl⟩

private theorem madeOf (h : root.Contains nodes) (hroot : ∀ n ∈ root.children, n.MadeOf tokens) :
    ∀ n ∈ nodes, n.MadeOf tokens := by
  obtain ⟨around, hholds, hnodes⟩ := h
  have haround : ∀ n ∈ around, n.MadeOf tokens := by
    clear hnodes
    induction hholds with
    | top => exact hroot
    | inside holds mem ih =>
      cases ih _ mem with
      | group start frame inside => exact inside
  exact fun n hn => haround n (hnodes.subset hn)

end Group.Contains

private theorem Group.contains_children {root g : Group} (h : g.toNode ∈ root.children) :
    root.Contains g.children :=
  ⟨g.children, .inside .top h, List.infix_rfl⟩

def Context.DateOverflows (ctx : Context) (root : Group) : Prop :=
  ∃ nodes, root.Contains nodes ∧ ctx.services.readDate ctx.reference nodes = .error .overflow

/-- A run that does not end with a refusal ends because of such a date expression. -/
def Failure.Dated (ctx : Context) (root : Group) : Failure SyntaxError → Prop
  | .rejected _ => True
  | .overflow => ctx.DateOverflows root

open Failure (Dated)

variable {ctx : Context} {root : Group}

private theorem Ends.ofExcept_dated {α : Type} (x : Except SyntaxError α) :
    Ends (Dated ctx root) (fun _ => True) (Result.ofExcept x) := by
  cases x with
  | error e => trivial
  | ok a => trivial

namespace TermReader

private theorem dated_readParam (call : Group) :
    Ends (Dated ctx root) (fun _ => True) (readParam ctx call) := by
  rw [readParam]
  split
  next => trivial
  next =>
    split
    · trivial
    · trivial
  next => trivial

private theorem dated_checkNumber (signed seen : Bool) (nodes : List Node) :
    Ends (Dated ctx root) (fun _ => True) (checkNumber signed seen nodes) := by
  induction nodes generalizing signed seen with
  | nil => trivial
  | cons n nodes ih =>
    rw [checkNumber]
    split
    · split
      · trivial
      · exact ih _ _
    · split
      · trivial
      · exact ih _ _
    · split
      · trivial
      · exact ih _ _
    · trivial

private theorem dated_checkLiteral {nodes : List Node} (h : root.Contains nodes) :
    Ends (Dated ctx root) (fun _ => True) (checkLiteral ctx nodes) := by
  unfold checkLiteral
  split
  next =>
    split
    next => trivial
    next e he =>
      cases e with
      | rejected e => trivial
      | overflow => exact ⟨nodes, h, he⟩
  next =>
    split
    · exact dated_checkNumber _ _ _
    · split
      · trivial
      · trivial

private theorem dated_readValue {nodes : List Node} (h : root.Contains nodes) :
    Ends (Dated ctx root) (fun _ => True) (readValue ctx nodes) := by
  rw [readValue]
  split
  next n g _ =>
    split
    · split
      · trivial
      · exact dated_readParam g
    · trivial
  next => exact (dated_checkLiteral h).bind fun _ _ _ => trivial

private theorem dated_readList (before : ListBefore) (nodes : List Node) :
    Ends (Dated ctx root) (fun _ => True) (readList before nodes) := by
  fun_induction readList before nodes with
  | case5 n nodes hcomma ih => exact ih
  | case7 before n nodes hcomma hvalue hbefore ih => exact ih.bind fun _ _ _ => trivial
  | _ => trivial

private theorem dated_readDictionary (field : String) (word : Node) (nodes : List Node) :
    Ends (Dated ctx root) (fun _ => True) (readDictionary ctx field word nodes) := by
  unfold readDictionary
  split
  next => trivial
  next => trivial
  next =>
    split
    · split
      · trivial
      · trivial
    · trivial

private theorem dated_readMembership (field : String) (value : Node) (rest : List Node) :
    Ends (Dated ctx root) (fun _ => True) (readMembership ctx field value rest) := by
  unfold readMembership
  split
  · exact dated_readDictionary field value rest
  · split
    next => trivial
    next =>
      split
      next => trivial
      next => exact (dated_readList _ _).bind fun _ _ _ => trivial

private theorem dated_readComparison {nodes : List Node} (h : root.Contains nodes) :
    Ends (Dated ctx root) (fun _ => True) (readComparison ctx nodes) := by
  refine (dated_readValue (h.part (List.takeWhile_prefix _).isInfix)).bind fun value _ _ => ?_
  split
  · trivial
  · trivial

private theorem dated_readBounds (condition : Node) {nodes : List Node}
    (h : root.Contains nodes) :
    Ends (Dated ctx root) (fun _ => True) (readBounds ctx condition nodes) := by
  refine (dated_readValue (h.part (List.takeWhile_prefix _).isInfix)).bind fun lower _ _ => ?_
  split
  next => trivial
  next separator rest heq =>
    have hafter : separator :: rest <:+: nodes := heq ▸ (List.dropWhile_suffix _).isInfix
    have hbound : rest.takeWhile (!isSeparator ·) <:+: nodes :=
      ((List.takeWhile_prefix _).isInfix.trans (List.suffix_cons _ _).isInfix).trans hafter
    refine (dated_readValue (h.part hbound)).bind fun upper _ _ => ?_
    split
    · trivial
    · split
      · trivial
      · trivial

private theorem dated_readValues (field condition : Node) (c : Condition) {values : List Node}
    (h : root.Contains values) :
    Ends (Dated ctx root) (fun _ => True) (readValues ctx field condition c values) := by
  unfold readValues
  dsimp only
  split
  case h_6 => exact dated_readMembership _ _ _
  case h_7 => exact (dated_readBounds condition h).bind fun _ _ _ => trivial
  case h_8 => exact (dated_readComparison h).bind fun _ _ _ => trivial
  all_goals trivial

private theorem dated_read {nodes : List Node} (h : root.Contains nodes) :
    Ends (Dated ctx root) (fun _ => True) (read ctx nodes) := by
  unfold read
  split
  next => trivial
  next field rest =>
    split
    · trivial
    · split
      next => trivial
      next condition values =>
        split
        · trivial
        · exact dated_readValues _ _ _ (h.part ⟨[field, condition], [], by simp⟩)

end TermReader

namespace FilterReader
variable {note : Bool} {p : Progress} {ns : List Node}

/-- The nodes of the term that is being read and the nodes to come follow each other. -/
def Progress.GoesOn (root : Group) (ns : List Node) (p : Progress) : Prop :=
  root.Contains (p.term ++ ns)

private theorem dated_endTerm (h : root.Contains p.term) :
    EndsIn (Dated ctx root) (fun q => q.term = []) (p.endTerm ctx note) := by
  rw [Progress.endTerm]
  split
  next hempty => exact fun s => List.isEmpty_iff.mp hempty
  next =>
    refine (EndsIn.lift (TermReader.dated_read h)).bind fun t _ => ?_
    cases note with
    | true => exact fun s => rfl
    | false => exact fun s => rfl

private theorem dated_finish (h : root.Contains p.term) :
    EndsIn (Dated ctx root) (fun _ => True) (p.finish ctx note) := by
  refine (dated_endTerm h).bind fun q _ => ?_
  split
  · exact fun s => trivial
  · exact fun s => trivial

namespace Progress.GoesOn

theorem term (h : p.GoesOn root ns) : root.Contains p.term :=
  h.part (List.prefix_append _ _).isInfix

theorem push {n : Node} (h : p.GoesOn root (n :: ns)) : (p.push n).GoesOn root ns := by
  rw [GoesOn, Progress.push, List.append_assoc]
  exact h

/-- Between two terms only the nodes to come matter. -/
theorem next {n : Node} (h : p.GoesOn root (n :: ns)) {q : Progress} (hq : q.term = []) :
    q.GoesOn root ns := by
  rw [GoesOn, hq]
  exact h.part ⟨p.term ++ [n], [], by simp⟩

end Progress.GoesOn

mutual

private theorem dated_readNode : (n : Node) → {ns : List Node} → {p : Progress} →
    p.GoesOn root (n :: ns) →
    EndsIn (Dated ctx root) (Progress.GoesOn root ns) (readNode ctx note p n)
  | .token t, ns, p, hp => by
    rw [readNode]
    split
    · exact fun s => hp.push
    · split
      next => exact (dated_endTerm hp.term).bind fun q hq s => hp.next hq
      next => exact fun s => hp.push
  | .group kind source span children, ns, p, hp => by
    cases kind with
    | bracket opening closing =>
      rw [readNode]
      split
      next hempty =>
        have hmem : .group (.bracket opening closing) source span children ∈
            p.term ++ .group (.bracket opening closing) source span children :: ns := by simp
        have hinside : Progress.GoesOn root children {} := hp.inside hmem
        refine (dated_readNodes children hinside).bind fun q hq => ?_
        exact (dated_finish hq.term).bind fun op _ s => hp.next (List.isEmpty_iff.mp hempty)
      next => exact fun s => hp.push
    | _ => exact fun s => hp.push

private theorem dated_readNodes : (ns : List Node) → {p : Progress} → p.GoesOn root ns →
    EndsIn (Dated ctx root) (Progress.GoesOn root []) (readNodes ctx note p ns)
  | [], _, hp => fun _ => hp
  | n :: ns, _, hp => (dated_readNode n hp).bind fun _ hq => dated_readNodes ns hq

end

private theorem dated_read {nodes : List Node} (h : root.Contains nodes) :
    EndsIn (Dated ctx root) (fun _ => True) (read ctx note nodes) := by
  have hstart : Progress.GoesOn root nodes {} := h
  exact (dated_readNodes nodes hstart).bind fun q hq => dated_finish hq.term

end FilterReader

namespace ConditionClause
variable {note : Bool}

private theorem dated_readExtensions {es : List Extension}
    (h : ∀ e ∈ es, root.Contains e.group.children) :
    EndsIn (Dated ctx root) (fun _ => True) (readExtensions ctx note es) := by
  induction es with
  | nil => exact fun s => trivial
  | cons e es ih =>
    obtain ⟨he, hes⟩ := List.forall_mem_cons.mp h
    have hfirst : EndsIn (Dated ctx root) (fun _ => True) (readExtension ctx note e) := by
      refine (FilterReader.dated_read he).bind fun condition _ => ?_
      split
      · exact fun s => trivial
      · exact fun s => trivial
    exact hfirst.bind fun parts _ => (ih hes).bind fun rest _ s => trivial

private theorem dated_read {clause : Group} (hc : root.Contains clause.children)
    {es : List Extension} (h : ∀ e ∈ es, root.Contains e.group.children) :
    EndsIn (Dated ctx root) (fun _ => True) (read ctx note clause es) := by
  refine (FilterReader.dated_read hc).bind fun condition _ => ?_
  refine (dated_readExtensions h).bind fun parts _ => ?_
  split
  · exact fun s => trivial
  · exact fun s => trivial

end ConditionClause

private theorem Node.eq_toNode_of_extension? {n : Node} {e : Extension}
    (he : n.extension? = some e) : e.group.toNode = n := by
  unfold Node.extension? at he
  split at he
  next =>
    split at he
    · cases he
      rfl
    · cases he
  next => cases he

/-- What holds of all nodes holds of each that an entry is made from. -/
theorem forall_attachExtensions {P : Node → Prop} {nodes : List Node} (h : ∀ n ∈ nodes, P n) :
    (∀ e ∈ (attachExtensions nodes).1, P e.group.toNode) ∧
      ∀ entry ∈ (attachExtensions nodes).2, P entry.1 ∧ ∀ e ∈ entry.2, P e.group.toNode := by
  induction nodes with
  | nil => simp [attachExtensions]
  | cons n nodes ih =>
    obtain ⟨hn, hnodes⟩ := List.forall_mem_cons.mp h
    obtain ⟨hleading, hentries⟩ := ih hnodes
    rw [attachExtensions]
    split
    next leading entries heq =>
      simp only [heq] at hleading hentries
      split
      next e he =>
        have hfirst : P e.group.toNode := Node.eq_toNode_of_extension? he ▸ hn
        exact ⟨List.forall_mem_cons.mpr ⟨hfirst, hleading⟩, hentries⟩
      next => exact ⟨by simp, List.forall_mem_cons.mpr ⟨⟨hn, hleading⟩, hentries⟩⟩

namespace Draft

private theorem dated_readCondition {note : Bool} {g : Group} (hg : root.Contains g.children)
    {extensions : List Extension} (he : ∀ e ∈ extensions, root.Contains e.group.children) :
    Ends (Dated ctx root) (fun _ => True) (readCondition ctx note g extensions) := by
  have hread : Ends (Dated ctx root) (fun _ => True)
      ((ConditionClause.read ctx note g extensions).run []).1 :=
    ConditionClause.dated_read hg he []
  rw [readCondition]
  split
  next => trivial
  next e names heq =>
    rw [heq] at hread
    exact hread

private theorem dated_readClause (d : Draft) {c : ClauseGroup} (hc : root.Contains c.group.children)
    {extensions : List Extension} (he : ∀ e ∈ extensions, root.Contains e.group.children) :
    Ends (Dated ctx root) (fun _ => True) (d.readClause ctx c extensions) := by
  rw [readClause]
  split
  · exact (dated_readCondition hc he).bind fun _ _ _ => trivial
  · exact (dated_readCondition hc he).bind fun _ _ _ => trivial
  · exact (dated_readCondition hc he).bind fun _ _ _ => trivial
  · refine (Ends.ofExcept_dated _).bind fun d' _ _ => ?_
    split
    · trivial
    · trivial

private theorem dated_readEntry (d : Draft) {entry : Node × List Extension}
    (hn : entry.1 ∈ root.children) (he : ∀ e ∈ entry.2, e.group.toNode ∈ root.children) :
    Ends (Dated ctx root) (fun _ => True) (d.readEntry ctx entry) := by
  refine (Ends.ofExcept_dated _).bind fun c hc _ => ?_
  refine (Ends.ofExcept_dated _).bind fun _ _ _ => ?_
  obtain ⟨hgroup, -⟩ := Node.clauseGroup_eq_ok (Result.ofExcept_eq_ok.mp hc)
  have hclause : root.Contains c.group.children := Group.contains_children (hgroup ▸ hn)
  have hextensions : ∀ e ∈ entry.2, root.Contains e.group.children :=
    fun e h => Group.contains_children (he e h)
  exact (dated_readClause d hclause hextensions).bind fun _ _ _ => trivial

private theorem dated_readEntries {entries : List (Node × List Extension)}
    (h : ∀ entry ∈ entries, entry.1 ∈ root.children ∧
      ∀ e ∈ entry.2, e.group.toNode ∈ root.children) (d : Draft) :
    Ends (Dated ctx root) (fun _ => True) (readEntries ctx d entries) := by
  induction entries generalizing d with
  | nil => trivial
  | cons entry entries ih =>
    obtain ⟨⟨hn, he⟩, hentries⟩ := List.forall_mem_cons.mp h
    exact (dated_readEntry d hn he).bind fun d' _ _ => ih hentries d'

private theorem dated_ofRoot (root : Group) :
    Ends (Dated ctx root) (fun _ => True) (ofRoot ctx root) := by
  have hnodes : ∀ n ∈ root.children, n ∈ root.children := fun _ hn => hn
  obtain ⟨-, hentries⟩ := forall_attachExtensions hnodes
  rw [ofRoot]
  split
  next => trivial
  next entries heq =>
    rw [heq] at hentries
    exact dated_readEntries hentries {}

end Draft

private theorem madeOf_of_rootOf {text : String} {root : Group} (h : rootOf text = .ok root) :
    ∀ n ∈ root.children, n.MadeOf (Lexer.tokens text) := by
  rw [rootOf] at h
  split at h
  next => cases h
  next => exact Group.madeOf_of_ofTokens h

/-- A run over a query goes past the limits only at a date expression in it. -/
theorem dateOverflows_of_compile {text : String} (h : compile ctx text = .error .overflow) :
    ∃ root, rootOf text = .ok root ∧ ctx.DateOverflows root := by
  rw [compile] at h
  cases hroot : rootOf text with
  | error e =>
    rw [hroot] at h
    cases h
  | ok root =>
    have hends : Ends (Dated ctx root) (fun _ => True) (compileRoot ctx root) :=
      (Draft.dated_ofRoot root).bind fun d _ _ => Ends.ofExcept_dated _
    rw [hroot] at h
    have hcompile : compileRoot ctx root = .error .overflow := h
    rw [hcompile] at hends
    exact ⟨root, rfl, hends⟩

end

/-- A duration that is too long stands among the nodes. -/
theorem DateExpression.MovesTooFar.exists_mem {nodes : List Node} (h : MovesTooFar nodes) :
    ∃ d ∈ nodes, d.kind = .duration ∧ Overlong d.text := by
  obtain ⟨first, kind, long⟩ := h
  refine ⟨_, List.mem_append_left _ ?_, kind, long⟩
  cases first with
  | bare => simp
  | add => simp
  | subtract => simp

/-- Reading a date expression goes past the limits of the arithmetic exactly when it asks for a week
that starts before the calendar, or comes to a duration of too many seconds. A run over a query
does so only at such an expression in it. Any other run ends with a request or with a refusal: in
particular every run at a reference time whose week the calendar has, over a query in which no
duration is too long. -/
theorem compile_overflow (catalog : Catalog) (request : BaseRequest) (reference : Instant) :
    (∀ nodes, DateExpression.read reference nodes = .error .overflow ↔
      DateExpression.Overflows reference nodes) ∧
    (∀ text, compile ⟨.ofCatalog catalog, request, reference⟩ text = .error .overflow →
      ∃ root nodes, rootOf text = .ok root ∧ root.Contains nodes ∧
        DateExpression.Overflows reference nodes) ∧
    ∀ text, Calendar.firstDay ≤ reference.day - Calendar.weekday reference.day →
      (∀ t ∈ Lexer.tokens text, t.kind = .duration → ¬ DateExpression.Overlong t.text) →
        (∃ r, compile ⟨.ofCatalog catalog, request, reference⟩ text = .ok r) ∨
          ∃ e, compile ⟨.ofCatalog catalog, request, reference⟩ text = .error (.rejected e) := by
  have hrun (text : String)
      (h : compile ⟨.ofCatalog catalog, request, reference⟩ text = .error .overflow) :
      ∃ root nodes, rootOf text = .ok root ∧ root.Contains nodes ∧
        DateExpression.Overflows reference nodes := by
    obtain ⟨root, hroot, nodes, hnodes, hread⟩ := dateOverflows_of_compile h
    have hoverflows := (DateExpression.read_eq_overflow_iff reference nodes).mp hread
    exact ⟨root, nodes, hroot, hnodes, hoverflows⟩
  refine ⟨DateExpression.read_eq_overflow_iff reference, hrun, ?_⟩
  intro text hweek hshort
  cases hcompile : compile ⟨.ofCatalog catalog, request, reference⟩ text with
  | ok r => exact .inl ⟨r, rfl⟩
  | error e =>
    cases e with
    | rejected e => exact .inr ⟨e, rfl⟩
    | overflow =>
      obtain ⟨root, nodes, hroot, hnodes, hoverflows⟩ := hrun text hcompile
      have hmade := hnodes.madeOf (madeOf_of_rootOf hroot)
      cases hoverflows with
      | week call early => exact absurd hweek (Int.not_le.mpr early)
      | duration before tooFar =>
        obtain ⟨d, hd, hkind, hlong⟩ := tooFar.exists_mem
        obtain ⟨t, ht, rfl, hkind⟩ := (hmade d (List.mem_append_right _ hd)).exists_token hkind
        exact absurd hlong (hshort t ht hkind)

namespace DateExpression.Sample

/-- A query with the longest duration in seconds that can be held. -/
def query : String := "from a where b > now() - 9223372036854775s"

def longer : String := "from a where b > now() - 9223372036854776s"

end DateExpression.Sample

open DateExpression.Sample in
theorem compile_overflow_sample :
    (∃ root nodes, rootOf longer = .ok root ∧ root.Contains nodes ∧
      DateExpression.Overflows ⟨0, 0⟩ nodes) ∧
    ((∃ r, compile .sample query = .ok r) ∨
      ∃ e, compile .sample query = .error (.rejected e)) := by
  have hlonger : compile .sample longer = .error .overflow := by decide +kernel
  have hquery : ∀ t ∈ Lexer.tokens query, t.kind = .duration →
      ¬ DateExpression.Overlong t.text := by
    decide +kernel
  obtain ⟨-, hrun, hends⟩ := compile_overflow .sample {} ⟨0, 0⟩
  exact ⟨hrun longer hlonger, hends query (by decide) hquery⟩

/-- A query can end the whole run. -/
theorem overlong_query_overflows :
    compile .sample DateExpression.Sample.longer = .error .overflow := by
  decide +kernel

end PipeQuery
