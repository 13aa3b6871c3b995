import PipeQuery.Error
import PipeQuery.Filter

/-!
Combining items by the connectives between them. A negation binds tightest, then `and`, then `or`.
Items with nothing between them are joined by `and`.
-/
namespace PipeQuery

inductive Part where
  | item (i : Item)
  | logic (op : Logic) (place : Place)

namespace Part

/-- Applies every negation to the item after it. -/
def negations : List Part → Except SyntaxError (List Part)
  | [] => .ok []
  | .logic .not _ :: .item i :: rest => return .item (.operator .not [i]) :: (← negations rest)
  | .logic .not place :: .logic _ _ :: _ => .error ⟨.missingTermAfter .not, some place⟩
  | [.logic .not place] => .error ⟨.trailingLogic .not, some place⟩
  | part :: rest => return part :: (← negations rest)

inductive Before where
  | nothing
  | item
  | logic (op : Logic) (place : Place)

/-- Splits parts at every `or` into runs that `and` joins. Each connective has an item on both
sides. -/
def runs : Before → List Part → Except SyntaxError (List (List Item))
  | .logic op place, [] => .error ⟨.trailingLogic op, some place⟩
  | _, [] => .ok [[]]
  | _, .item i :: rest => do
    match ← runs .item rest with
    | [] => return [[i]]
    | run :: others => return (i :: run) :: others
  | .nothing, .logic op place :: _ => .error ⟨.missingTermBefore op, some place⟩
  | .logic previous _, .logic _ place :: _ => .error ⟨.missingTermAfter previous, some place⟩
  | .item, .logic op place :: rest => do
    let others ← runs (.logic op place) rest
    return if op = .or then [] :: others else others

def joinRuns : List (List Item) → Operator
  | [] => {}
  | run :: others =>
    let conjunction (items : List Item) := Operator.merge {} .and items
    others.foldl (fun acc items => acc.merge .or [(conjunction items).toItem]) (conjunction run)

def combine (parts : List Part) : Except SyntaxError Operator := do
  return (joinRuns (← runs .nothing (← negations parts))).simplify

end Part

end PipeQuery
