import PipeQuery.Proofs.Filter.Simplify

/-!
Merging filters with items. The receiver adds what it would add as an item, or nothing if it is
empty, and so the items of a conjunction or disjunction can be merged in any number of steps.
-/
namespace PipeQuery

namespace Operator

def leading (o : Operator) (op : Logic) : List Item :=
  if o.isEmpty then [] else o.toItem.spread op

private theorem merge_eq (o : Operator) (op : Logic) (items : List Item) :
    o.merge op items = ⟨op, o.leading op ++ items.flatMap (Item.spread op)⟩ := by
  rw [merge, leading]
  split
  · rfl
  · rw [toItem, Item.spread]
    split <;> rfl

/-- The children of an operator stand for it under its own connective. -/
theorem leading_self {op : Logic} (h : op ≠ .not) (children : List Item) :
    leading ⟨op, children⟩ op = children := by
  cases children with
  | nil => rfl
  | cons i is => simp [leading, isEmpty, toItem, Item.spread, h]

private theorem terms_leading (o : Operator) (op : Logic) :
    Item.termsList (o.leading op) = o.terms := by
  rw [leading]
  split
  next he =>
    rw [terms_eq, List.isEmpty_iff.mp he]
  next => exact Item.termsList_spread op o.toItem

theorem terms_merge (o : Operator) (op : Logic) (items : List Item) :
    (o.merge op items).terms = o.terms ++ Item.termsList items := by
  have hitems : Item.termsList (items.flatMap (Item.spread op)) = Item.termsList items := by
    induction items with
    | nil => rfl
    | cons i is ih =>
      rw [List.flatMap_cons, Item.termsList_append, Item.termsList_spread, ih, Item.termsList]
  rw [merge_eq, terms_eq, Item.termsList_append, terms_leading, hitems]

/-- Merging with items in two batches is merging with all of them at once, unless the connective is
a negation. Whatever the connective, the merged filter means the connective over the filter and the
items, of which those that mean nothing are passed over. -/
theorem merge_lawful (o : Operator) :
    (∀ op ≠ .not, ∀ xs ys, (o.merge op xs).merge op ys = o.merge op (xs ++ ys)) ∧
      ∀ (v : Term → Bool) op xs,
        (o.merge op xs).meaning v = (Item.operator op (o.toItem :: xs)).meaning v := by
  constructor
  · intro op hop xs ys
    rw [merge_eq o op xs, merge_eq, leading_self hop, merge_eq, List.flatMap_append,
      List.append_assoc]
  · intro v op xs
    rw [meaning_merge, Item.meaning, Item.meanings]
    rfl

open Sample in
/-- A disjunction under a conjunction, with batches that have a conjunction and an empty operator;
and a negation, which keeps the negation that it is merged with. -/
theorem merge_lawful_sample :
    ((merge ⟨.or, [nullTest "a"]⟩ .and [.operator .and [nullTest "b", nullTest "c"]]).merge .and
        [.operator .and [], nullTest "d"] =
      ⟨.and, [.operator .or [nullTest "a"], nullTest "b", nullTest "c", nullTest "d"]⟩) ∧
    ∀ v, (merge ⟨.not, [nullTest "a"]⟩ .not [nullTest "b"]).meaning v =
      some !(!v ⟨"a", .isNull, none, none⟩ && v ⟨"b", .isNull, none, none⟩) := by
  refine ⟨(merge_lawful _).1 .and (by decide) _ _, fun v => ?_⟩
  rw [(merge_lawful _).2 v]
  simp [Item.meaning, Item.meanings, toItem, nullTest, Logic.join, Logic.value]

end Operator

end PipeQuery
