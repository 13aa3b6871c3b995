import PipeQuery.Proofs.Filter.Meaning

/-!
Simplifying a filter changes neither what it means nor which terms it is made of. This holds of
every filter, also of those that no query is read as.
-/
namespace PipeQuery

namespace Item

mutual

def terms : Item → List Term
  | .term t => [t]
  | .operator _ children => termsList children

def termsList : List Item → List Term
  | [] => []
  | i :: is => i.terms ++ termsList is

end

theorem termsList_append (is js : List Item) :
    termsList (is ++ js) = termsList is ++ termsList js := by
  induction is with
  | nil => rfl
  | cons i is ih => simp [termsList, ih]

theorem termsList_singleton (i : Item) : termsList [i] = i.terms := by
  simp [termsList]

theorem termsList_spread (op : Logic) (i : Item) : termsList (i.spread op) = i.terms := by
  cases i with
  | term t => exact termsList_singleton (.term t)
  | operator inner children =>
    rw [spread]
    split
    · rw [terms]
    · exact termsList_singleton _

end Item

namespace Operator

def terms (o : Operator) : List Term := o.toItem.terms

theorem terms_eq (o : Operator) : o.terms = Item.termsList o.children := by
  rw [terms, toItem, Item.terms]

private theorem terms_of_children_eq_singleton {o : Operator} {i : Item} (h : o.children = [i]) :
    o.terms = i.terms := by
  rw [terms_eq, h, Item.termsList_singleton]

private theorem terms_unwrap (o : Operator) : o.unwrap.terms = o.terms := by
  fun_cases unwrap o with
  | case1 op children hc ho | case2 op children hc ho =>
    exact (terms_of_children_eq_singleton hc).symm
  | case3 => rfl

/-- Nothing is left of an operator only if it has no terms. -/
theorem terms_collapse (o : Operator) : Item.termsList o.collapse.toList = o.terms := by
  fun_cases collapse o with
  | case1 hc =>
    rw [terms_eq, hc]
    rfl
  | case2 child hc ho | case3 child hc ho =>
    rw [terms_of_children_eq_singleton hc]
    exact Item.termsList_singleton child
  | case4 => exact Item.termsList_singleton o.toItem

end Operator

namespace Item

mutual

theorem terms_simplify : (i : Item) → termsList i.simplify.toList = i.terms
  | .term t => termsList_singleton (.term t)
  | .operator op children => by
    rw [simplify, Operator.terms_collapse, Operator.terms_unwrap, Operator.terms_eq, terms]
    exact terms_simplifyList op children

private theorem terms_simplifyList (op : Logic) : (is : List Item) →
    termsList (simplifyList op is) = termsList is
  | [] => rfl
  | i :: is => by
    rw [simplifyList, termsList_append, termsList, terms_simplifyList op is, ← terms_simplify i]
    cases i.simplify with
    | none => rfl
    | some j =>
      rw [termsList_spread]
      exact congrArg (· ++ _) (termsList_singleton j).symm

end

end Item

theorem Operator.terms_simplify (o : Operator) : o.simplify.terms = o.terms := by
  rw [simplify, terms_unwrap, terms_eq, terms_eq]
  exact Item.terms_simplifyList o.op o.children

/-- A simplified filter means the same as the filter under every assignment of truth values to
terms, or nothing if the filter means nothing. It is made of the same terms in the same order. -/
theorem Operator.simplify_faithful (o : Operator) :
    (∀ v : Term → Bool, o.simplify.meaning v = o.meaning v) ∧ o.simplify.terms = o.terms :=
  ⟨fun _ => meaning_simplify o, terms_simplify o⟩

end PipeQuery
