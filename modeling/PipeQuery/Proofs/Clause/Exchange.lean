import PipeQuery.Proofs.Clause.Entry
import PipeQuery.Proofs.Draft.Past

/-!
Clauses that may be exchanged. `sort`, `group` and `having` change different parts of a draft, as
`eval` and `window` do, and none of them looks at what the other changes. So the order of two that
stand next to each other does not matter to the request.
-/
namespace PipeQuery

namespace Clause

def exchanges : List (Clause × Clause) :=
  [(.sort, .group), (.sort, .having), (.group, .having), (.eval, .window)]

def Exchangeable (a b : Clause) : Prop := (a, b) ∈ exchanges ∨ (b, a) ∈ exchanges

instance (a b : Clause) : Decidable (Exchangeable a b) := inferInstanceAs (Decidable (_ ∨ _))

theorem Exchangeable.symm {a b : Clause} (h : Exchangeable a b) : Exchangeable b a := Or.symm h

/-- An `eval` is not exchanged with another one. -/
theorem Exchangeable.ne_eval_left {a b : Clause} (h : Exchangeable a b) (hb : b = .eval) :
    a ≠ .eval := by
  rintro rfl
  rw [hb] at h
  exact absurd h (by decide)

/-- The nodes are a clause: a group that starts it, and the connective pipes after it. -/
inductive MadeOf (c : Clause) : List Node → Prop
  | mk (g : Group) (pipes : List Node) (hg : g.Starts c)
      (hpipes : ∀ p ∈ pipes, p.extension?.isSome) : MadeOf c (g.toNode :: pipes)

/-- The order check lets exchangeable clauses pass in either order. -/
theorem checkOrder_exchange {a b : Clause} {consumed : List Clause} (hab : Exchangeable a b)
    (place place' : Place) (ha : checkOrder place a consumed = .ok ())
    (hb : checkOrder place' b (consumed ++ [a]) = .ok ()) :
    checkOrder place' b consumed = .ok () ∧ checkOrder place a (consumed ++ [b]) = .ok () := by
  rw [checkOrder_eq_ok_iff] at ha hb ⊢
  rw [checkOrder_eq_ok_iff]
  have hne : a ≠ .source ∧ b ≠ .source ∧ b ∈ a.validAfter := by
    revert hab
    cases a <;> cases b <;> decide
  obtain ⟨hsource, hvalid⟩ := ha
  have hconsumed := hsource.resolve_left hne.1
  refine ⟨⟨.inr hconsumed, fun seen hseen => hb.2 seen (List.mem_append_left _ hseen)⟩,
    .inr (List.mem_append_left _ hconsumed), ?_⟩
  intro seen hseen
  rcases List.mem_append.mp hseen with hseen | hseen
  · exact hvalid seen hseen
  · cases List.mem_singleton.mp hseen
    exact hne.2.2

end Clause

namespace Draft

/-- What reading an exchangeable clause does to a draft. -/
inductive Change where
  | sorts (keys : List (String × SortDirection))
  | groups (fields : List String)
  | having (condition : Operator) (fields : List HavingField)
  | eval (name : String) (e : Expr)
  | window (w : Window)

def Change.clause : Change → Clause
  | .sorts _ => .sort
  | .groups _ => .group
  | .having .. => .having
  | .eval .. => .eval
  | .window _ => .window

def change (d : Draft) : Change → Draft
  | .sorts keys => d.addSorts keys
  | .groups fields => d.addGroups fields
  | .having condition fields =>
    { d with
      table := { d.table with aggregateFilter := some condition }
      having := d.having ++ fields }
  | .eval name e => { d with evals := d.evals.insert name e }
  | .window w => { d with table := { d.table with window := some w } }

section
variable {ctx : Context} {d d' : Draft}

/-- The new sort keys hang on the old ones alone. -/
theorem addSorts_eq (keys : List (String × SortDirection)) (d : Draft) :
    d.addSorts keys = { d with sorts := (addSorts { sorts := d.sorts } keys).sorts } := by
  induction keys generalizing d with
  | nil => rfl
  | cons key keys ih =>
    have hone := ih (d.addSort key.1 key.2)
    exact hone

/-- Exchangeable changes are to different parts of a draft. -/
theorem change_comm {k k' : Change} (h : k.clause.Exchangeable k'.clause) (d : Draft) :
    (d.change k).change k' = (d.change k').change k := by
  -- It is enough to go through the table.
  have table {k k' : Change} (h : (k.clause, k'.clause) ∈ Clause.exchanges) :
      (d.change k).change k' = (d.change k').change k := by
    cases k with
    | sorts keys =>
      cases k' with
      | groups fields =>
        simp only [change]
        rw [addSorts_eq keys d, addSorts_eq keys (d.addGroups fields)]
        rfl
      | having condition fields =>
        simp only [change]
        rw [addSorts_eq keys d, addSorts_eq keys { d with table := _, having := _ }]
      | _ => simp [Change.clause, Clause.exchanges] at h
    | groups fields =>
      cases k' with
      | having condition fields => rfl
      | _ => simp [Change.clause, Clause.exchanges] at h
    | eval name e =>
      cases k' with
      | window w => rfl
      | _ => simp [Change.clause, Clause.exchanges] at h
    | _ => simp [Change.clause, Clause.exchanges] at h
  rcases h with h | h
  · exact table h
  · exact (table h).symm

private theorem evals_change {k : Change} (h : k.clause ≠ .eval) (d : Draft) :
    (d.change k).evals = d.evals := by
  cases k with
  | sorts keys => rw [change, addSorts_eq]
  | groups fields => rfl
  | having condition fields => rfl
  | eval name e => exact absurd rfl h
  | window w => rfl

theorem readAlone_eq_ok_iff {c : ClauseGroup} {extensions : List Extension} :
    d.readAlone ctx c extensions = .ok d' ↔
      d.readPlain ctx c.clause c.group = .ok d' ∧ extensions = [] := by
  rw [readAlone, bind_eq_ok]
  cases extensions with
  | nil => simp [Result.ofExcept_eq_ok, pure, Except.pure]
  | cons e es => simp

/-- Reading an exchangeable clause makes one change, whatever the draft. Only an `eval` looks at the
draft, and there at the expressions that have names. -/
theorem exists_change {c : ClauseGroup} {extensions : List Extension} {b : Clause}
    (hc : c.clause.Exchangeable b) (h : d.readClause ctx c extensions = .ok d') :
    ∃ k : Change, k.clause = c.clause ∧ d' = d.change k ∧
      ∀ d₁ : Draft, (c.clause = .eval → d₁.evals = d.evals) →
        d₁.readClause ctx c extensions = .ok (d₁.change k) := by
  obtain ⟨clause, place, g⟩ := c
  cases clause with
  | sort =>
    obtain ⟨hplain, rfl⟩ := readAlone_eq_ok_iff.mp h
    obtain ⟨keys, hkeys, hd⟩ := bind_eq_ok.mp hplain
    cases hd
    refine ⟨.sorts keys, rfl, rfl, fun d₁ _ => ?_⟩
    refine readAlone_eq_ok_iff.mpr ⟨?_, rfl⟩
    exact bind_eq_ok.mpr ⟨keys, hkeys, rfl⟩
  | group =>
    obtain ⟨hplain, rfl⟩ := readAlone_eq_ok_iff.mp h
    obtain ⟨fields, hfields, hd⟩ := bind_eq_ok.mp hplain
    cases hd
    refine ⟨.groups fields, rfl, rfl, fun d₁ _ => ?_⟩
    refine readAlone_eq_ok_iff.mpr ⟨?_, rfl⟩
    exact bind_eq_ok.mpr ⟨fields, hfields, rfl⟩
  | having =>
    obtain ⟨⟨condition, fields⟩, hcondition, hd⟩ := bind_eq_ok.mp h
    cases hd
    refine ⟨.having condition fields, rfl, rfl, fun d₁ _ => ?_⟩
    exact bind_eq_ok.mpr ⟨(condition, fields), hcondition, rfl⟩
  | eval =>
    obtain ⟨hplain, rfl⟩ := readAlone_eq_ok_iff.mp h
    obtain ⟨⟨name, nodes⟩, hname, hrest⟩ := bind_eq_ok.mp hplain
    obtain ⟨e, he, hd⟩ := bind_eq_ok.mp hrest
    cases hd
    refine ⟨.eval name e, rfl, rfl, fun d₁ hevals => ?_⟩
    have he₁ : d₁.readScalar ctx g nodes = .ok e := by
      rw [readScalar, hevals rfl]
      exact he
    refine readAlone_eq_ok_iff.mpr ⟨bind_eq_ok.mpr ⟨(name, nodes), hname, ?_⟩, rfl⟩
    exact bind_eq_ok.mpr ⟨e, he₁, rfl⟩
  | window =>
    obtain ⟨hplain, rfl⟩ := readAlone_eq_ok_iff.mp h
    obtain ⟨w, hw, hd⟩ := bind_eq_ok.mp hplain
    cases hd
    refine ⟨.window w, rfl, rfl, fun d₁ _ => ?_⟩
    refine readAlone_eq_ok_iff.mpr ⟨?_, rfl⟩
    exact bind_eq_ok.mpr ⟨w, hw, rfl⟩
  | _ => simp [Clause.Exchangeable, Clause.exchanges] at hc

/-- Two exchangeable clauses change a draft alike in either order. -/
theorem readClause_exchange {c c' : ClauseGroup} {extensions extensions' : List Extension}
    {d₁ d₂ : Draft} (hc : c.clause.Exchangeable c'.clause)
    (h₁ : d.readClause ctx c extensions = .ok d₁)
    (h₂ : d₁.readClause ctx c' extensions' = .ok d₂) :
    ∃ d₁', d.readClause ctx c' extensions' = .ok d₁' ∧
      d₁'.readClause ctx c extensions = .ok d₂ := by
  obtain ⟨k, hk, rfl, hreads⟩ := exists_change hc h₁
  obtain ⟨k', hk', rfl, hreads'⟩ := exists_change hc.symm h₂
  have hswap : d.readClause ctx c' extensions' = .ok (d.change k') := by
    refine hreads' d fun heval => ?_
    rw [evals_change (hk ▸ hc.ne_eval_left heval)]
  refine ⟨d.change k', hswap, ?_⟩
  rw [change_comm (hk ▸ hk' ▸ hc)]
  exact hreads (d.change k') fun heval => evals_change (hk' ▸ hc.symm.ne_eval_left heval) d

/-- Two exchangeable entries that stand next to each other may be read in either order. -/
theorem alike_exchange {e e' : Node × List Extension} {c c' : ClauseGroup} {d₂ : Draft}
    (he : e.1.clauseGroup = .ok c) (he' : e'.1.clauseGroup = .ok c')
    (hc : c.clause.Exchangeable c'.clause) (h : readEntries ctx d [e, e'] = .ok d₂) :
    ∃ d₂', readEntries ctx d [e', e] = .ok d₂' ∧ Alike d₂ d₂' := by
  obtain ⟨s₁, hentry, hrest⟩ := bind_eq_ok.mp h
  obtain ⟨s₂, hentry', hnil⟩ := bind_eq_ok.mp hrest
  cases hnil
  obtain ⟨c₁, d₁, hc₁, horder, hread, rfl⟩ := readEntry_eq_ok_iff.mp hentry
  obtain ⟨c₂, d₃, hc₂, horder', hread', rfl⟩ := readEntry_eq_ok_iff.mp hentry'
  cases he.symm.trans hc₁
  cases he'.symm.trans hc₂
  have hconsumed := (step_readClause hread).consumed
  rw [hconsumed] at horder' hread'
  rw [readClause_consumed] at hread'
  cases hsecond : d₁.readClause ctx c' e'.2 with
  | error err =>
    rw [hsecond] at hread'
    cases hread'
  | ok d₂ =>
    rw [hsecond] at hread'
    cases hread'
    obtain ⟨d₁', hread₁, hread₂⟩ := readClause_exchange hc hread hsecond
    obtain ⟨horder₁, horder₂⟩ := Clause.checkOrder_exchange hc c.place c'.place horder horder'
    have hconsumed' := (step_readClause hread₁).consumed
    have hsecond' : readClause ctx { d₁' with consumed := d₁'.consumed ++ [c'.clause] } c e.2 =
        .ok { d₂ with consumed := d.consumed ++ [c'.clause] } := by
      rw [readClause_consumed, hread₂, hconsumed']
      rfl
    refine ⟨{ d₂ with consumed := d.consumed ++ [c'.clause] ++ [c.clause] }, ?_, ?_⟩
    · refine bind_eq_ok.mpr ⟨_, readEntry_eq_ok_iff.mpr ⟨c', d₁', hc₂, horder₁, hread₁, rfl⟩, ?_⟩
      refine bind_eq_ok.mpr ⟨_, readEntry_eq_ok_iff.mpr ⟨c, _, hc₁, ?_, hsecond', rfl⟩, rfl⟩
      rw [hconsumed']
      exact horder₂
    · refine ⟨d.consumed ++ [c'.clause] ++ [c.clause], d₂.having, ?_, rfl, rfl⟩
      simp only [List.append_assoc]
      exact (List.Perm.swap c'.clause c.clause []).append_left d.consumed

end

end Draft

/-- A clause is one entry. -/
theorem Clause.MadeOf.exists_entry {c : Clause} {ns : List Node} (h : c.MadeOf ns) :
    ∃ e k, attachExtensions ns = ([], [e]) ∧ e.1.clauseGroup = .ok k ∧ k.clause = c := by
  obtain ⟨g, pipes, hg, hpipes⟩ := h
  obtain ⟨place, hgroup⟩ := Node.exists_clauseGroup hg
  refine ⟨(g.toNode, (attachExtensions pipes).1), ⟨c, place, g⟩, ?_, hgroup, rfl⟩
  rw [attachExtensions_cons (Node.extension?_of_starts hg), entries_of_pipes hpipes]

/-- Two clauses inside a query are two entries next to each other. -/
theorem attachExtensions_two {front first second back : List Node} {e e' : Node × List Extension}
    (hfirst : attachExtensions first = ([], [e])) (hsecond : attachExtensions second = ([], [e']))
    (hback : (attachExtensions back).1 = []) :
    attachExtensions (front ++ first ++ second ++ back) = ((attachExtensions front).1,
      (attachExtensions front).2 ++ ([e, e'] ++ (attachExtensions back).2)) := by
  have hlast : attachExtensions (second ++ back) = ([], e' :: (attachExtensions back).2) := by
    rw [attachExtensions_append hback, hsecond]
    rfl
  have hboth : attachExtensions (first ++ (second ++ back)) =
      ([], [e, e'] ++ (attachExtensions back).2) := by
    rw [attachExtensions_append (by rw [hlast]), hfirst, hlast]
    rfl
  rw [List.append_assoc, List.append_assoc, attachExtensions_append (by rw [hboth]), hboth]

/-- Two clauses that stand next to each other and are `sort` and `group`, `sort` and `having`,
`group` and `having`, or `eval` and `window`, each with its connective pipes, may be exchanged: the
query compiles as before, and to the same request. -/
theorem compileRoot_exchange {ctx : Context} {root root' : Group} {request : SearchRequest}
    {a b : Clause} {front first second back : List Node} (hab : a.Exchangeable b)
    (hfirst : a.MadeOf first) (hsecond : b.MadeOf second)
    (hback : ∀ n ∈ back.head?, n.extension? = none)
    (hroot : root.children = front ++ first ++ second ++ back)
    (hroot' : root'.children = front ++ second ++ first ++ back)
    (h : compileRoot ctx root = .ok request) : compileRoot ctx root' = .ok request := by
  obtain ⟨e, c, hentry, hc, rfl⟩ := hfirst.exists_entry
  obtain ⟨e', c', hentry', hc', rfl⟩ := hsecond.exists_entry
  have hback' : (attachExtensions back).1 = [] := by
    cases back with
    | nil => rfl
    | cons n ns => rw [attachExtensions_cons (hback n rfl)]
  obtain ⟨d, hd, hfinish⟩ := bind_eq_ok.mp h
  rw [Draft.ofRoot_eq_ok_iff, hroot, attachExtensions_two hentry hentry' hback'] at hd
  obtain ⟨hfront, hread⟩ := hd
  rw [Draft.readEntries_append] at hread
  obtain ⟨d₁, hread₁, hread⟩ := bind_eq_ok.mp hread
  rw [Draft.readEntries_append] at hread
  obtain ⟨d₂, hread₂, hread₃⟩ := bind_eq_ok.mp hread
  -- The two clauses leave alike drafts in either order, and the rest of the walk keeps them alike.
  obtain ⟨d₂', hread₂', hd₂⟩ := Draft.alike_exchange hc hc' hab hread₂
  obtain ⟨d', hread₃', hd'⟩ := Draft.alike_readEntries_self hd₂ hread₃
  refine bind_eq_ok.mpr ⟨d', ?_, ?_⟩
  · rw [Draft.ofRoot_eq_ok_iff, hroot', attachExtensions_two hentry' hentry hback']
    refine ⟨hfront, ?_⟩
    rw [Draft.readEntries_append]
    refine bind_eq_ok.mpr ⟨d₁, hread₁, ?_⟩
    rw [Draft.readEntries_append]
    exact bind_eq_ok.mpr ⟨d₂', hread₂', hread₃'⟩
  · exact Result.ofExcept_eq_ok.mpr (Draft.alike_finish hd' (Result.ofExcept_eq_ok.mp hfinish))

namespace Exchange.Sample

def query : String := "from a having b=1|or c=2 sort d select d"

def token (kind : TokenKind) (start stop : Nat) : Token := ⟨kind, query, ⟨start, stop⟩⟩

def clause (c : Clause) (start word stop : Nat) (children : List Node) : Group :=
  ⟨.clause (token (.clause c) start word), query, ⟨start, stop⟩, children⟩

def equality (start : Nat) : List Node :=
  [.token (token .word start (start + 1)),
    .token (token (.relation .equal) (start + 1) (start + 2)),
    .token (token .number (start + 2) (start + 3))]

def source : Group := clause .source 0 4 6 [.token (token .word 5 6)]

def having : Group := clause .having 7 13 17 (equality 14)

def pipe : Node :=
  .group (.pipe (token .pipe 17 18) (token .command 18 20)) query ⟨17, 24⟩ (equality 21)

def sort : Group := clause .sort 25 29 31 [.token (token .word 30 31)]

def select : Group := clause .select 32 38 40 [.token (token .word 39 40)]

def root (first second : List Node) : Group :=
  ⟨.root, query, ⟨0, 40⟩, [source.toNode] ++ first ++ second ++ [select.toNode]⟩

end Exchange.Sample

open Exchange.Sample in
theorem compileRoot_exchange_sample :
    rootOf query = .ok (root [having.toNode, pipe] [sort.toNode]) ∧
      ∃ request, compileRoot .sample (root [having.toNode, pipe] [sort.toNode]) = .ok request ∧
        compileRoot .sample (root [sort.toNode] [having.toNode, pipe]) = .ok request := by
  have hhaving : Clause.having.MadeOf [having.toNode, pipe] :=
    .mk having [pipe] (.keyword _ rfl rfl) (List.forall_mem_singleton.mpr (by decide +kernel))
  have hsort : Clause.sort.MadeOf [sort.toNode] := .mk sort [] (.keyword _ rfl rfl) (by simp)
  refine ⟨eq_ok_of_toOption (by decide +kernel), ?_⟩
  have hok : (compileRoot .sample (root [having.toNode, pipe] [sort.toNode])).isOk = true := by
    decide +kernel
  obtain ⟨request, h⟩ := exists_eq_ok_of_isOk hok
  refine ⟨request, h, compileRoot_exchange (by decide) hhaving hsort ?_ rfl rfl h⟩
  intro n hn
  cases hn
  rfl

end PipeQuery
