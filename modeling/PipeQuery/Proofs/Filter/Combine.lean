import PipeQuery.Filter.Combine
import PipeQuery.Proofs.Filter.Meaning

/-!
Combining parts, step by step: negations are applied first, runs of conjunctions are found next and
joined by disjunctions last. Each step works on the parts of an operand as it does when nothing
stands around them.
-/
namespace PipeQuery

/-- Operands of a conjunction or disjunction can be joined in two halves. -/
theorem Logic.join_append {op : Logic} (h : op ≠ .not) {xs ys : List Bool} {a b : Bool}
    (hx : op.join xs = some a) (hy : op.join ys = some b) :
    op.join (xs ++ ys) = some (op.value [a, b]) := by
  have hagree := (agree_join h xs).append (agree_join h ys)
  rw [hx, hy] at hagree
  exact hagree.join_eq

namespace Part

/-- The parts become `qs` when their negations are applied, whatever follows them. -/
def Negates (ps qs : List Part) : Prop :=
  ∀ rest, negations (ps ++ rest) = (qs ++ ·) <$> negations rest

namespace Negates

theorem item (i : Item) : Negates [.item i] [.item i] := by
  intro rest
  simp only [List.singleton_append, negations]
  cases negations rest with
  | error e => rfl
  | ok qs => rfl

theorem not_item (place : Place) (i : Item) :
    Negates [.logic .not place, .item i] [.item (.operator .not [i])] := by
  intro rest
  simp only [List.cons_append, List.nil_append, negations]
  cases negations rest with
  | error e => rfl
  | ok qs => rfl

theorem logic {op : Logic} (h : op ≠ .not) (place : Place) :
    Negates [.logic op place] [.logic op place] := by
  intro rest
  cases op with
  | not => exact absurd rfl h
  | and | or =>
    simp only [List.singleton_append, negations]
    cases negations rest with
    | error e => rfl
    | ok qs => rfl

theorem append {ps qs ps' qs' : List Part} (h : Negates ps qs) (h' : Negates ps' qs') :
    Negates (ps ++ ps') (qs ++ qs') := by
  intro rest
  rw [List.append_assoc, h, h']
  cases negations rest with
  | error e => rfl
  | ok rs => simp [Functor.map, Except.map]

/-- Operands with a connective between them. -/
theorem joined {op : Logic} (hop : op ≠ .not) (place : Place) {ps qs ps' qs' : List Part}
    (h : Negates ps qs) (h' : Negates ps' qs') :
    Negates (ps ++ .logic op place :: ps') (qs ++ .logic op place :: qs') :=
  h.append ((logic hop place).append h')

theorem negations_eq {ps qs : List Part} (h : Negates ps qs) : negations ps = .ok qs := by
  have hnil := h []
  rw [List.append_nil] at hnil
  rw [hnil]
  simp [negations, Functor.map, Except.map]

end Negates

/-- The parts are the items of one run, which goes on with what follows them. -/
def IsRun (qs : List Part) (run : List Item) : Prop :=
  ∀ before rest first others, runs .item rest = .ok (first :: others) →
    runs before (qs ++ rest) = .ok ((run ++ first) :: others)

/-- The parts make up whole runs if nothing or an `or` follows them. -/
def AreRuns (qs : List Part) (rs : List (List Item)) : Prop :=
  ∀ before rest others, runs .item rest = .ok ([] :: others) →
    runs before (qs ++ rest) = .ok (rs ++ others)

theorem IsRun.item (i : Item) : IsRun [.item i] [i] := by
  intro before rest first others hrest
  cases before <;> simp [runs, hrest, bind, Except.bind, pure, Except.pure]

theorem IsRun.and {qs qs' : List Part} {run run' : List Item} (h : IsRun qs run)
    (h' : IsRun qs' run') (place : Place) :
    IsRun (qs ++ .logic .and place :: qs') (run ++ run') := by
  intro before rest first others hrest
  have hright := h' (.logic .and place) rest first others hrest
  rw [List.append_assoc, List.append_assoc]
  apply h
  simp [runs, hright, bind, Except.bind, pure, Except.pure]

theorem IsRun.areRuns {qs : List Part} {run : List Item} (h : IsRun qs run) :
    AreRuns qs [run] := by
  intro before rest others hrest
  simpa using h before rest [] others hrest

theorem AreRuns.or {qs qs' : List Part} {rs rs' : List (List Item)} (h : AreRuns qs rs)
    (h' : AreRuns qs' rs') (place : Place) :
    AreRuns (qs ++ .logic .or place :: qs') (rs ++ rs') := by
  intro before rest others hrest
  have hright := h' (.logic .or place) rest others hrest
  rw [List.append_assoc, List.append_assoc]
  apply h
  simp [runs, hright, bind, Except.bind, pure, Except.pure]

private theorem AreRuns.runs_eq {qs : List Part} {rs : List (List Item)} (h : AreRuns qs rs) :
    runs .nothing qs = .ok rs := by
  have hnil := h .nothing [] [] rfl
  rwa [List.append_nil, List.append_nil] at hnil

theorem combine_eq {ps qs : List Part} {rs : List (List Item)} (hn : Negates ps qs)
    (hr : AreRuns qs rs) : combine ps = .ok (joinRuns rs).simplify := by
  simp [combine, hn.negations_eq, hr.runs_eq, bind, Except.bind, pure, Except.pure]

def runsMeaning (v : Term → Bool) (rs : List (List Item)) : Option Bool :=
  Logic.or.join (Item.meanings v (rs.map (Item.operator .and)))

/-- Joining runs one after the other means their disjunction. -/
theorem meaning_joinRuns {v : Term → Bool} (rs : List (List Item)) :
    (joinRuns rs).meaning v = runsMeaning v rs := by
  have hrun (run : List Item) :
      (Operator.merge {} .and run).meaning v = (Item.operator .and run).meaning v := by
    rw [Operator.meaning_merge, Item.meaning]
    rfl
  have hfold (acc : Operator) (rs : List (List Item)) :
      (rs.foldl (fun acc run => acc.merge .or [(Operator.merge {} .and run).toItem]) acc).meaning v =
        Logic.or.join ((acc.meaning v).toList ++ Item.meanings v (rs.map (Item.operator .and))) := by
    induction rs generalizing acc with
    | nil => simp [Item.meanings, Logic.join_toList]
    | cons run rs ih =>
      rw [List.foldl_cons, ih, Operator.meaning_merge, Item.meanings_singleton, ← Operator.meaning,
        hrun, List.map_cons, Item.meanings, ← List.append_assoc]
      exact ((Logic.agree_join (by decide) _).append (.refl _ _)).join_eq.symm
  cases rs with
  | nil => rfl
  | cons run rs =>
    rw [joinRuns, hfold, hrun, runsMeaning, List.map_cons, Item.meanings]

end Part

end PipeQuery
