import PipeQuery.Token.Kind

/-!
Filters: terms under connectives. Every operator has one connective for all of its children, and
`NOT` negates the conjunction of its children.
-/
namespace PipeQuery

structure DocRef where
  type : String
  uuid : String
  name : String
  deriving DecidableEq, Repr

inductive Condition where
  | relation (r : Relation)
  | isNull
  | isNotNull
  | between
  | inList
  | inDictionary
  deriving DecidableEq, Repr

namespace Condition

def all : List Condition :=
  Relation.all.map relation ++ [.isNull, .isNotNull, .between, .inList, .inDictionary]

def symbol : Condition → String
  | .relation r => r.symbol
  | .isNull => "is null"
  | .isNotNull => "is not null"
  | .between => "between"
  | .inList => "in"
  | .inDictionary => "in dictionary"

def ofKind? : TokenKind → Option Condition
  | .relation r => some (.relation r)
  | .isNull => some .isNull
  | .isNotNull => some .isNotNull
  | .between => some .between
  | .inList => some .inList
  | _ => none

end Condition

structure Term where
  field : String
  condition : Condition
  value : Option String := none
  docRef : Option DocRef := none
  deriving DecidableEq, Repr

def Term.render (t : Term) : String :=
  t.field ++ " " ++ t.condition.symbol ++
    match t.docRef, t.value with
    | some doc, _ => " " ++ doc.name
    | none, some value => if value.isEmpty then "" else " " ++ value
    | none, none => ""

inductive Item where
  | term (t : Term)
  | operator (op : Logic) (children : List Item)
  deriving Repr

mutual

def Item.decEq : (a b : Item) → Decidable (a = b)
  | .term a, .term b =>
    if h : a = b then isTrue (h ▸ rfl) else isFalse fun e => h (Item.term.inj e)
  | .operator op₁ c₁, .operator op₂ c₂ =>
    if h : op₁ = op₂ then
      match Item.decEqList c₁ c₂ with
      | isTrue hc => isTrue (by rw [h, hc])
      | isFalse hc => isFalse fun e => hc (Item.operator.inj e).2
    else isFalse fun e => h (Item.operator.inj e).1
  | .term _, .operator .. => isFalse nofun
  | .operator .., .term _ => isFalse nofun

def Item.decEqList : (a b : List Item) → Decidable (a = b)
  | [], [] => isTrue rfl
  | a :: as, b :: bs =>
    match Item.decEq a b, Item.decEqList as bs with
    | isTrue h, isTrue hs => isTrue (by rw [h, hs])
    | isFalse h, _ => isFalse fun e => h (List.cons.inj e).1
    | _, isFalse hs => isFalse fun e => hs (List.cons.inj e).2
  | [], _ :: _ => isFalse nofun
  | _ :: _, [] => isFalse nofun

end

instance : DecidableEq Item := Item.decEq

/-- An operator on its own, as the root of a filter. -/
structure Operator where
  op : Logic := .and
  children : List Item := []
  deriving DecidableEq, Repr

namespace Operator

def toItem (o : Operator) : Item := .operator o.op o.children

def isEmpty (o : Operator) : Bool := o.children.isEmpty

end Operator

namespace Item

/-- Whether an item needs brackets as a child. -/
def isCompound : Item → Bool
  | .operator .and (_ :: _ :: _) => true
  | .operator .or (_ :: _ :: _) => true
  | _ => false

def join (op : Logic) (children : List String) : String :=
  match op with
  | .and => " AND ".intercalate children
  | .or => " OR ".intercalate children
  | .not =>
    let inner := " AND ".intercalate children
    if 1 < children.length then "NOT (" ++ inner ++ ")" else "NOT " ++ inner

mutual

def render : Item → String
  | .term t => t.render
  | .operator op children => join op (renderList children)

def renderList : List Item → List String
  | [] => []
  | i :: is =>
    (if i.isCompound then "(" ++ i.render ++ ")" else i.render) :: renderList is

end

/-- The item as a child of an operator: children of a child with the same connective stand on their
own, unless the connective is a negation. -/
def spread (op : Logic) : Item → List Item
  | .term t => [.term t]
  | .operator inner children =>
    if inner = op ∧ op ≠ .not then children else [.operator inner children]

end Item

def Operator.render (o : Operator) : String := o.toItem.render

/-- Joins a filter and further items under a connective. The filter becomes the first child unless
it is empty or has the same connective, which is not a negation. -/
def Operator.merge (o : Operator) (op : Logic) (items : List Item) : Operator :=
  let incoming := items.flatMap (Item.spread op)
  if o.isEmpty then ⟨op, incoming⟩
  else if o.op = op ∧ op ≠ .not then ⟨op, o.children ++ incoming⟩
  else ⟨op, o.toItem :: incoming⟩

/-- An operator with one operator as its only child is this child, unless it is a negation. -/
def Operator.unwrap (o : Operator) : Operator :=
  match o.op, o.children with
  | .and, [.operator op children] => ⟨op, children⟩
  | .or, [.operator op children] => ⟨op, children⟩
  | _, _ => o

/-- An operator as a child: nothing if it is empty, its child if it has only one and is no
negation. -/
def Operator.collapse (o : Operator) : Option Item :=
  match o.op, o.children with
  | _, [] => none
  | .and, [child] => some child
  | .or, [child] => some child
  | _, _ => some o.toItem

mutual

def Item.simplify : Item → Option Item
  | .term t => some (.term t)
  | .operator op children => (Operator.unwrap ⟨op, Item.simplifyList op children⟩).collapse

def Item.simplifyList (op : Logic) : List Item → List Item
  | [] => []
  | i :: is =>
    (match i.simplify with
    | some i => i.spread op
    | none => []) ++ Item.simplifyList op is

end

/-- The filter without empty operators, needless operators and needless nesting. The root stays an
operator. -/
def Operator.simplify (o : Operator) : Operator :=
  Operator.unwrap ⟨o.op, Item.simplifyList o.op o.children⟩

end PipeQuery
