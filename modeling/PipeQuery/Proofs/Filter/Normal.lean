import PipeQuery.Clause.Reader
import PipeQuery.Proofs.Result

/-!
The normal form of filters. A child that collapses may come up with any connective, so what is kept
through the recursion is that children are in normal form and that none of them repeats the
connective of the operator around it. A filter in normal form is not simplified any further.
-/
namespace PipeQuery

def Item.op? : Item → Option Logic
  | .term _ => none
  | .operator op _ => some op

/-- The connective is a negation, or no item is an operator with the same connective. -/
def Logic.Apart (op : Logic) (children : List Item) : Prop :=
  op ≠ .not → ∀ i ∈ children, i.op? ≠ some op

/-- An item in normal form: no operator is empty, a conjunction or disjunction joins at least two
items, and it joins none that is an operator with the same connective. -/
inductive Item.Normal : Item → Prop where
  | term (t : Term) : Normal (.term t)
  | operator {op : Logic} {children : List Item} (nonempty : children ≠ [])
      (several : op ≠ .not → 2 ≤ children.length) (apart : op.Apart children)
      (below : ∀ i ∈ children, Normal i) : Normal (.operator op children)

/-- A filter in normal form. Unlike the operators below it, the root may be empty, and it may be a
conjunction or disjunction of one term. -/
structure Operator.Normal (o : Operator) : Prop where
  below : ∀ i ∈ o.children, i.Normal
  apart : o.op.Apart o.children
  lone : o.op ≠ .not → ∀ i, o.children = [i] → ∃ t, i = .term t

theorem Logic.Apart.append {op : Logic} {is js : List Item} (hi : op.Apart is) (hj : op.Apart js) :
    op.Apart (is ++ js) := by
  intro hop i h
  rcases List.mem_append.mp h with h | h
  · exact hi hop i h
  · exact hj hop i h

namespace Item
variable {op : Logic} {i : Item}

theorem Normal.spread (h : i.Normal) (op : Logic) : ∀ j ∈ i.spread op, j.Normal := by
  cases h with
  | term t => simpa [Item.spread] using .term t
  | operator nonempty several apart below =>
    rw [Item.spread]
    split
    · exact below
    · simpa using .operator nonempty several apart below

private theorem Normal.apart_spread (h : i.Normal) (op : Logic) : op.Apart (i.spread op) := by
  intro hop
  cases h with
  | term t => simp [Item.spread, op?]
  | @operator inner children nonempty several apart below =>
    rw [Item.spread]
    split
    next heq =>
      obtain ⟨rfl, -⟩ := heq
      exact apart hop
    next hne =>
      have hinner : inner ≠ op := fun heq => hne ⟨heq, hop⟩
      simpa [op?] using hinner

theorem spread_eq_self (h : op ≠ .not → i.op? ≠ some op) : i.spread op = [i] := by
  cases i with
  | term t => rfl
  | operator inner children =>
    rw [spread, if_neg]
    rintro ⟨rfl, hop⟩
    exact h hop rfl

end Item

namespace Operator
variable {o : Operator}

/-- A root that is replaced by its only child is in normal form, since the child has more children
or is a negation. -/
theorem normal_unwrap (hbelow : ∀ i ∈ o.children, i.Normal) (hapart : o.op.Apart o.children) :
    o.unwrap.Normal := by
  fun_cases unwrap o with
  | case1 op children hc ho | case2 op children hc ho =>
    cases hbelow (.operator op children) (by simp [hc]) with
    | operator nonempty several apart below =>
      refine ⟨below, apart, ?_⟩
      rintro hop i rfl
      exact absurd (several hop) (by simp)
  | case3 hand hor =>
    refine ⟨hbelow, hapart, ?_⟩
    intro hop i hc
    cases i with
    | term t => exact ⟨t, rfl⟩
    | operator op children =>
      cases ho : o.op with
      | and => exact (hand op children ho hc).elim
      | or => exact (hor op children ho hc).elim
      | not => exact absurd ho hop

/-- What is left of an operator as a child is in normal form. -/
theorem Normal.collapse (h : o.Normal) {i : Item} (hi : o.collapse = some i) : i.Normal := by
  revert hi
  fun_cases Operator.collapse o with
  | case1 hc => nofun
  | case2 child hc ho | case3 child hc ho =>
    rintro ⟨⟩
    exact h.below i (by simp [hc])
  | case4 hne hand hor =>
    rintro ⟨⟩
    refine .operator hne ?_ h.apart h.below
    intro hop
    cases hc : o.children with
    | nil => exact (hne hc).elim
    | cons child rest =>
      cases rest with
      | cons => simp
      | nil =>
        cases ho : o.op with
        | and => exact (hand child ho hc).elim
        | or => exact (hor child ho hc).elim
        | not => exact absurd ho hop

end Operator

namespace Item

mutual

/-- What is left of an item is in normal form. -/
theorem normal_simplify : (i : Item) → ∀ j, i.simplify = some j → j.Normal
  | .term t, _, rfl => .term t
  | .operator op children, _, h => by
    obtain ⟨hbelow, hapart⟩ := normal_simplifyList op children
    rw [simplify] at h
    exact (Operator.normal_unwrap hbelow hapart).collapse h

private theorem normal_simplifyList (op : Logic) : (is : List Item) →
    (∀ j ∈ simplifyList op is, j.Normal) ∧ op.Apart (simplifyList op is)
  | [] => ⟨nofun, fun _ => nofun⟩
  | i :: is => by
    obtain ⟨hbelow, hapart⟩ := normal_simplifyList op is
    rw [simplifyList]
    cases hi : i.simplify with
    | none => exact ⟨hbelow, hapart⟩
    | some j =>
      have hj := normal_simplify i j hi
      exact ⟨List.forall_mem_append.mpr ⟨hj.spread op, hbelow⟩, (hj.apart_spread op).append hapart⟩

end

private theorem simplifyList_eq_self {op : Logic} {is : List Item}
    (h : ∀ i ∈ is, i.simplify = some i) (hapart : op.Apart is) : simplifyList op is = is := by
  induction is with
  | nil => rfl
  | cons i is ih =>
    obtain ⟨hi, his⟩ := List.forall_mem_cons.mp h
    have hspread : i.spread op = [i] := spread_eq_self fun hop => hapart hop i List.mem_cons_self
    have hrest : op.Apart is := fun hop j hj => hapart hop j (List.mem_cons_of_mem i hj)
    rw [simplifyList, hi, ih his hrest]
    exact congrArg (· ++ is) hspread

end Item

namespace Operator
variable {o : Operator}

private theorem Normal.unwrap_eq_self (h : o.Normal) : o.unwrap = o := by
  fun_cases Operator.unwrap o with
  | case1 op children hc ho | case2 op children hc ho =>
    obtain ⟨t, ht⟩ := h.lone (by simp [ho]) _ hc
    cases ht
  | case3 => rfl

private theorem collapse_eq_toItem (hne : o.children ≠ [])
    (hseveral : o.op ≠ .not → 2 ≤ o.children.length) : o.collapse = some o.toItem := by
  fun_cases Operator.collapse o with
  | case1 hc => exact absurd hc hne
  | case2 child hc ho | case3 child hc ho =>
    have hlen := hseveral (by simp [ho])
    simp [hc] at hlen
  | case4 => rfl

end Operator

/-- An item in normal form is not simplified any further. -/
theorem Item.Normal.simplify_eq_self {i : Item} (h : i.Normal) : i.simplify = some i := by
  induction h with
  | term t => rfl
  | @operator op children nonempty several apart below ih =>
    have hnormal : Operator.Normal ⟨op, children⟩ := by
      refine ⟨below, apart, ?_⟩
      rintro hop i rfl
      exact absurd (several hop) (by simp)
    rw [simplify, simplifyList_eq_self ih apart, hnormal.unwrap_eq_self]
    exact Operator.collapse_eq_toItem nonempty several

namespace Operator

theorem normal_simplify (o : Operator) : o.simplify.Normal := by
  obtain ⟨hbelow, hapart⟩ := Item.normal_simplifyList o.op o.children
  exact normal_unwrap hbelow hapart

private theorem Normal.simplify_eq_self {o : Operator} (h : o.Normal) : o.simplify = o := by
  have hchildren := Item.simplifyList_eq_self (fun i hi => (h.below i hi).simplify_eq_self) h.apart
  rw [simplify, hchildren]
  exact h.unwrap_eq_self

end Operator

private theorem Part.normal_combine {parts : List Part} {o : Operator} (h : combine parts = .ok o) :
    o.Normal := by
  obtain ⟨ps, -, h⟩ := bind_eq_ok.mp h
  obtain ⟨rs, -, h⟩ := bind_eq_ok.mp h
  cases h
  exact (joinRuns rs).normal_simplify

private theorem ConditionClause.normal_read {ctx : Context} {note : Bool} {clause : Group}
    {extensions : List Extension} {o : Operator}
    (h : Returns (read ctx note clause extensions) o) : o.Normal := by
  obtain ⟨condition, -, h⟩ := h.of_bind
  obtain ⟨parts, -, h⟩ := h.of_bind
  cases hc : Part.combine (.item condition.toItem :: parts) with
  | error e =>
    rw [hc] at h
    exact (not_returns_throw h).elim
  | ok op =>
    rw [hc] at h
    cases h.of_pure
    exact Part.normal_combine hc

/-- Every simplified filter is in normal form, and a filter in normal form is what it is simplified
to. So is every filter that parts are combined to, and with it the condition of every clause. -/
theorem Operator.simplify_normalizes :
    (∀ o : Operator, o.simplify.Normal ∧ o.simplify.simplify = o.simplify) ∧
      (∀ parts o, Part.combine parts = .ok o → o.Normal ∧ o.simplify = o) ∧
      ∀ ctx note clause extensions o, Returns (ConditionClause.read ctx note clause extensions) o →
        o.Normal ∧ o.simplify = o := by
  refine ⟨?_, ?_, ?_⟩
  · intro o
    exact ⟨o.normal_simplify, o.normal_simplify.simplify_eq_self⟩
  · intro parts o h
    exact ⟨Part.normal_combine h, (Part.normal_combine h).simplify_eq_self⟩
  · intro ctx note clause extensions o h
    exact ⟨ConditionClause.normal_read h, (ConditionClause.normal_read h).simplify_eq_self⟩

/-- A context without documents, for conditions that name none. -/
def Context.bare : Context := ⟨.ofCatalog {}, {}, ⟨0, 0⟩⟩

namespace Operator.Sample

def nullTest (field : String) : Item := .term ⟨field, .isNull, none, none⟩

/-- A conjunction that collapses to a disjunction below a disjunction, and empty operators. -/
def nested : Operator :=
  ⟨.or, [.operator .and [.operator .or [nullTest "a", .operator .not [], nullTest "b"]],
    .operator .and [.operator .not [nullTest "c"], .operator .or []]]⟩

/-- The parts of `a is null and (b is null and not c is null)`. -/
def parts : List Part :=
  [.item (nullTest "a"), .logic .and ⟨⟨10, 13⟩, "and"⟩,
    .item (.operator .and [nullTest "b", .operator .not [nullTest "c"]])]

def clause : Group :=
  let source := "where ((a is null))"
  let bracket (start stop : Nat) (children : List Node) : Node :=
    .group (.bracket ⟨.openBracket, source, ⟨start, start + 1⟩⟩
      ⟨.closeBracket, source, ⟨stop - 1, stop⟩⟩) source ⟨start, stop⟩ children
  ⟨.clause ⟨.clause .restrict, source, ⟨0, 5⟩⟩, source, ⟨0, 19⟩,
    [bracket 6 19 [bracket 7 18 [.token ⟨.word, source, ⟨8, 9⟩⟩,
      .token ⟨.isNull, source, ⟨10, 17⟩⟩]]]⟩

end Operator.Sample

open Operator.Sample in
theorem Operator.simplify_normalizes_sample :
    (nested.simplify = ⟨.or, [nullTest "a", nullTest "b", .operator .not [nullTest "c"]]⟩ ∧
      nested.simplify.Normal) ∧
    (∃ o, Part.combine parts = .ok o ∧ o.Normal ∧
      o = ⟨.and, [nullTest "a", nullTest "b", .operator .not [nullTest "c"]]⟩) ∧
    ∃ o, Returns (ConditionClause.read .bare false clause []) o ∧ o.Normal ∧
      o = ⟨.and, [nullTest "a"]⟩ := by
  obtain ⟨hsimplify, hcombine, hclause⟩ := simplify_normalizes
  have hparts : Part.combine parts =
      .ok ⟨.and, [nullTest "a", nullTest "b", .operator .not [nullTest "c"]]⟩ := rfl
  have hread : Returns (ConditionClause.read .bare false clause []) ⟨.and, [nullTest "a"]⟩ :=
    ⟨[], [], rfl⟩
  exact ⟨⟨rfl, (hsimplify nested).1⟩, ⟨_, hparts, (hcombine _ _ hparts).1, rfl⟩,
    ⟨_, hread, (hclause _ _ _ _ _ hread).1, rfl⟩⟩

end PipeQuery
