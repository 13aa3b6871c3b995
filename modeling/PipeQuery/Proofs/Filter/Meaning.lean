import PipeQuery.Proofs.Filter.Normal

/-!
What filters mean under an assignment of truth values to terms. An operator without children means
nothing and is passed over by the operator around it. Simplifying and merging keep the meaning, and
a simplified filter that means something has its plain truth value as its meaning.
-/
namespace PipeQuery

namespace Logic

def value : Logic → List Bool → Bool
  | .and, bs => bs.all id
  | .or, bs => bs.any id
  | .not, bs => !bs.all id

/-- The meaning of a connective over the operands that mean something. -/
def join (op : Logic) : List Bool → Option Bool
  | [] => none
  | b :: bs => some (op.value (b :: bs))

/-- The two lists can stand for each other among the operands of a connective. -/
structure Agree (op : Logic) (xs ys : List Bool) : Prop where
  nil_iff : xs = [] ↔ ys = []
  value_eq : op.value xs = op.value ys

theorem Agree.refl (op : Logic) (xs : List Bool) : op.Agree xs xs := ⟨Iff.rfl, rfl⟩

theorem Agree.append {op : Logic} {xs ys us vs : List Bool} (h : op.Agree xs ys)
    (h' : op.Agree us vs) : op.Agree (xs ++ us) (ys ++ vs) := by
  obtain ⟨hn, hv⟩ := h
  obtain ⟨hn', hv'⟩ := h'
  refine ⟨by simp [hn, hn'], ?_⟩
  cases op <;> simp_all [value]

theorem Agree.join_eq {op : Logic} {xs ys : List Bool} (h : op.Agree xs ys) :
    op.join xs = op.join ys := by
  obtain ⟨hn, hv⟩ := h
  cases xs with
  | nil => rw [hn.mp rfl]
  | cons x xs =>
    cases ys with
    | nil => simp at hn
    | cons y ys => simp only [join, hv]

private theorem value_singleton {op : Logic} (h : op ≠ .not) (b : Bool) : op.value [b] = b := by
  cases op <;> simp_all [value]

/-- One operand is what it is joined to, unless it is negated. -/
theorem join_toList {op : Logic} (h : op ≠ .not) (m : Option Bool) : op.join m.toList = m := by
  cases m with
  | none => rfl
  | some b => simp [join, value_singleton h]

/-- Operands can be joined before the others, unless they are negated. -/
theorem agree_join {op : Logic} (h : op ≠ .not) (xs : List Bool) :
    op.Agree xs (op.join xs).toList := by
  cases xs with
  | nil => exact .refl op []
  | cons x xs => exact ⟨by simp [join], by simp [join, value_singleton h]⟩

end Logic

namespace Item

mutual

def eval (v : Term → Bool) : Item → Bool
  | .term t => v t
  | .operator op children => op.value (evalList v children)

def evalList (v : Term → Bool) : List Item → List Bool
  | [] => []
  | i :: is => i.eval v :: evalList v is

end

mutual

def meaning (v : Term → Bool) : Item → Option Bool
  | .term t => some (v t)
  | .operator op children => op.join (meanings v children)

def meanings (v : Term → Bool) : List Item → List Bool
  | [] => []
  | i :: is => (i.meaning v).toList ++ meanings v is

end

variable {v : Term → Bool}

theorem meanings_append (is js : List Item) :
    meanings v (is ++ js) = meanings v is ++ meanings v js := by
  induction is with
  | nil => rfl
  | cons i is ih => simp [meanings, ih]

theorem meanings_singleton (i : Item) : meanings v [i] = (i.meaning v).toList := by
  simp [meanings]

private theorem agree_spread (op : Logic) (i : Item) :
    op.Agree (meanings v (i.spread op)) (i.meaning v).toList := by
  cases i with
  | term t => exact .refl op _
  | operator inner children =>
    by_cases h : inner = op ∧ op ≠ .not
    · obtain ⟨rfl, hop⟩ := h
      simpa [spread, hop, meaning] using Logic.agree_join hop (meanings v children)
    · rw [spread, if_neg h, meanings_singleton]
      exact .refl op _

private theorem agree_flatMap_spread (op : Logic) (is : List Item) :
    op.Agree (meanings v (is.flatMap (spread op))) (meanings v is) := by
  induction is with
  | nil => exact .refl op []
  | cons i is ih =>
    rw [List.flatMap_cons, meanings_append]
    exact (agree_spread op i).append ih

end Item

namespace Operator
variable {v : Term → Bool}

def eval (v : Term → Bool) (o : Operator) : Bool := o.toItem.eval v

def meaning (v : Term → Bool) (o : Operator) : Option Bool := o.toItem.meaning v

private theorem meaning_eq (o : Operator) :
    o.meaning v = o.op.join (Item.meanings v o.children) := by
  rw [meaning, toItem, Item.meaning]

/-- A conjunction or disjunction of one item means this item. -/
theorem meaning_of_children_eq_singleton {o : Operator} {i : Item} (hop : o.op ≠ .not)
    (h : o.children = [i]) : o.meaning v = i.meaning v := by
  rw [meaning_eq, h, Item.meanings_singleton, Logic.join_toList hop]

/-- Merging a filter with items means the connective over the filter and the items. -/
theorem meaning_merge (o : Operator) (op : Logic) (items : List Item) :
    (o.merge op items).meaning v = op.join ((o.meaning v).toList ++ Item.meanings v items) := by
  have hitems := Item.agree_flatMap_spread (v := v) op items
  unfold merge
  split
  next he =>
    have hm : o.meaning v = none := by
      rw [meaning, toItem, List.isEmpty_iff.mp he, Item.meaning, Item.meanings, Logic.join]
    rw [meaning_eq, hm]
    exact hitems.join_eq
  next =>
    split
    next h =>
      obtain ⟨rfl, hop⟩ := h
      rw [meaning_eq, Item.meanings_append]
      exact ((Logic.agree_join hop _).append hitems).join_eq
    next =>
      rw [meaning_eq, Item.meanings]
      exact ((Logic.Agree.refl op _).append hitems).join_eq

private theorem meaning_unwrap (o : Operator) : o.unwrap.meaning v = o.meaning v := by
  fun_cases unwrap o with
  | case1 op children hc ho => rw [meaning_of_children_eq_singleton (by simp [ho]) hc]; rfl
  | case2 op children hc ho => rw [meaning_of_children_eq_singleton (by simp [ho]) hc]; rfl
  | case3 => rfl

private theorem meaning_collapse (o : Operator) :
    o.collapse.bind (Item.meaning v) = o.meaning v := by
  fun_cases collapse o with
  | case1 hc =>
    rw [meaning_eq, hc]
    rfl
  | case2 child hc ho => exact (meaning_of_children_eq_singleton (by simp [ho]) hc).symm
  | case3 child hc ho => exact (meaning_of_children_eq_singleton (by simp [ho]) hc).symm
  | case4 => rfl

end Operator

namespace Item
variable {v : Term → Bool}

mutual

/-- Simplifying an item keeps its meaning. An item of which nothing is left meant nothing. -/
theorem meaning_simplify : (i : Item) → i.simplify.bind (meaning v) = i.meaning v
  | .term t => rfl
  | .operator op children => by
    rw [simplify, Operator.meaning_collapse, Operator.meaning_unwrap, Operator.meaning_eq, meaning]
    exact (agree_simplifyList op children).join_eq

private theorem agree_simplifyList (op : Logic) : (is : List Item) →
    op.Agree (meanings v (simplifyList op is)) (meanings v is)
  | [] => .refl op []
  | i :: is => by
    rw [simplifyList, meanings_append, meanings]
    refine Logic.Agree.append ?_ (agree_simplifyList op is)
    rw [← meaning_simplify i]
    cases i.simplify with
    | none => exact .refl op []
    | some j => exact agree_spread op j

end

end Item

theorem Operator.meaning_simplify {v : Term → Bool} (o : Operator) :
    o.simplify.meaning v = o.meaning v := by
  rw [simplify, meaning_unwrap, meaning_eq, (Item.agree_simplifyList o.op o.children).join_eq]
  exact (meaning_eq o).symm

namespace Item

/-- No operator in the item is without children. -/
inductive Solid : Item → Prop where
  | term (t : Term) : Solid (.term t)
  | operator (op : Logic) {children : List Item} (nonempty : children ≠ [])
      (children_solid : ∀ i ∈ children, Solid i) : Solid (.operator op children)

private theorem meanings_eq_evalList {v : Term → Bool} {is : List Item}
    (h : ∀ i ∈ is, i.meaning v = some (i.eval v)) : meanings v is = evalList v is := by
  induction is with
  | nil => rfl
  | cons i is ih =>
    obtain ⟨hi, his⟩ := List.forall_mem_cons.mp h
    simp [meanings, evalList, hi, ih his]

/-- An item with nothing to pass over means its truth value. -/
theorem Solid.meaning_eq {v : Term → Bool} {i : Item} (h : i.Solid) :
    i.meaning v = some (i.eval v) := by
  induction h with
  | term t => rfl
  | @operator op children nonempty children_solid ih =>
    rw [meaning, eval, meanings_eq_evalList ih]
    cases children with
    | nil => exact absurd rfl nonempty
    | cons i is => rfl

private theorem Normal.solid {i : Item} (h : i.Normal) : i.Solid := by
  induction h with
  | term t => exact .term t
  | operator nonempty several apart below ih => exact .operator _ nonempty ih

end Item

/-- The truth value of a simplified filter is what the filter meant. -/
theorem Operator.eval_simplify {v : Term → Bool} {o : Operator} {b : Bool}
    (h : o.meaning v = some b) : o.simplify.eval v = b := by
  have hm : o.simplify.meaning v = some b := by rw [meaning_simplify, h]
  have hne : o.simplify.children ≠ [] := by
    intro hc
    rw [meaning_eq, hc] at hm
    cases hm
  have hs : o.simplify.toItem.Solid :=
    .operator _ hne fun i hi => (o.normal_simplify.below i hi).solid
  rw [meaning, hs.meaning_eq] at hm
  exact Option.some.inj hm

end PipeQuery
