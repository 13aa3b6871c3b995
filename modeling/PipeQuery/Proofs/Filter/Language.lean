import PipeQuery.Proofs.Filter.Combine
import PipeQuery.Proofs.Filter.Merge
import PipeQuery.Proofs.Result

/-!
Which lists of parts can be combined, and that nothing of them is lost. Negations take their items
first and the other connectives are checked later, each by what stands before it; together the two
scans accept operands in a row, with or without a connective between two of them.
-/
namespace PipeQuery.Part

inductive IsOperand : List Part → Prop where
  | item (i : Item) : IsOperand [.item i]
  | not (place : Place) (i : Item) : IsOperand [.logic .not place, .item i]

/-- Operands, each but the first after an `and`, after an `or` or directly after the one before
it. -/
inductive IsCondition : List Part → Prop where
  | operand {ps : List Part} (operand : IsOperand ps) : IsCondition ps
  | adjacent {ps qs : List Part} (operand : IsOperand ps) (rest : IsCondition qs) :
    IsCondition (ps ++ qs)
  | joined {ps qs : List Part} {op : Logic} (place : Place) (operand : IsOperand ps)
    (binary : op ≠ .not) (rest : IsCondition qs) : IsCondition (ps ++ .logic op place :: qs)

def terms : Part → List Term
  | .item i => i.terms
  | .logic .. => []

private theorem IsOperand.negates {ps : List Part} (h : IsOperand ps) :
    ∃ i, Negates ps [.item i] := by
  cases h with
  | item i => exact ⟨i, .item i⟩
  | not place i => exact ⟨.operator .not [i], .not_item place i⟩

def pushItem (i : Item) : List (List Item) → List (List Item)
  | [] => [[i]]
  | run :: others => (i :: run) :: others

private theorem flatten_pushItem (i : Item) (rs : List (List Item)) :
    (pushItem i rs).flatten = i :: rs.flatten := by
  cases rs <;> rfl

/-- What stands before an item matters neither to it nor to the parts after it. -/
theorem runs_item (before : Before) (i : Item) (ps : List Part) :
    runs before (.item i :: ps) = (runs .item ps).map (pushItem i) := by
  have hitem : runs before (.item i :: ps) = runs .item (.item i :: ps) := by
    cases before <;> rfl
  rw [hitem, runs]
  cases runs .item ps with
  | error e => rfl
  | ok rs => cases rs <;> rfl

theorem runs_item_eq_ok {before : Before} {i : Item} {ps : List Part} {rs : List (List Item)} :
    runs before (.item i :: ps) = .ok rs ↔
      ∃ rest, runs .item ps = .ok rest ∧ pushItem i rest = rs := by
  rw [runs_item]
  cases runs .item ps with
  | error e => simp [Except.map]
  | ok rest => simp [Except.map]

private theorem exists_runs_item (before : Before) (i : Item) {ps : List Part}
    {rs : List (List Item)} (h : runs .item ps = .ok rs) :
    ∃ rs', runs before (.item i :: ps) = .ok rs' :=
  ⟨_, runs_item_eq_ok.mpr ⟨rs, h, rfl⟩⟩

def Before.Admits : Before → List Part → Prop
  | .nothing, ps => ps = [] ∨ IsCondition ps
  | .item, ps => ps = [] ∨ IsCondition ps ∨
      ∃ op place qs, op ≠ Logic.not ∧ IsCondition qs ∧ ps = .logic op place :: qs
  | .logic .., ps => IsCondition ps

private theorem IsCondition.admits {ps : List Part} (h : IsCondition ps) (before : Before) :
    before.Admits ps := by
  cases before with
  | nothing => exact .inr h
  | item => exact .inr (.inl h)
  | logic op place => exact h

private theorem IsOperand.isCondition_append {ps qs : List Part} (h : IsOperand ps)
    (hq : Before.item.Admits qs) : IsCondition (ps ++ qs) := by
  rcases hq with rfl | hq | ⟨op, place, rest, hop, hrest, rfl⟩
  · rw [List.append_nil]
    exact .operand h
  · exact .adjacent h hq
  · exact .joined place h hop hrest

/-- Parts that pass both scans are accepted, by induction on the first of them. -/
theorem admits_of_runs {before : Before} {ps qs : List Part} {rs : List (List Item)}
    (hn : negations ps = .ok qs) (hr : runs before qs = .ok rs) : before.Admits ps := by
  induction ps using negations.induct generalizing before qs rs with
  | case1 =>
    cases hn
    cases before with
    | nothing => exact .inl rfl
    | item => exact .inl rfl
    | logic op place => cases hr
  | case2 place i rest ih =>
    rw [negations] at hn
    obtain ⟨qs, hqs, hn⟩ := bind_eq_ok.mp hn
    cases hn
    obtain ⟨rs, hrs, -⟩ := runs_item_eq_ok.mp hr
    exact ((IsOperand.not place i).isCondition_append (ih hqs hrs)).admits before
  | case3 | case4 => cases hn
  | case5 part rest hitem hlogic hlast ih =>
    rw [negations.eq_5 part rest hitem hlogic hlast] at hn
    obtain ⟨qs, hqs, hn⟩ := bind_eq_ok.mp hn
    cases hn
    cases part with
    | item i =>
      obtain ⟨rs, hrs, -⟩ := runs_item_eq_ok.mp hr
      exact ((IsOperand.item i).isCondition_append (ih hqs hrs)).admits before
    | logic op place =>
      cases before with
      | nothing => cases hr
      | logic => cases hr
      | item =>
        obtain ⟨rs, hrs, -⟩ := bind_eq_ok.mp hr
        refine .inr (.inr ⟨op, place, rest, ?_, ih hqs hrs, rfl⟩)
        rintro rfl
        cases rest with
        | nil => exact hlast place rfl rfl
        | cons next rest =>
          cases next with
          | item i => exact hitem place i rest rfl rfl
          | logic op' place' => exact hlogic place op' place' rest rfl rfl

/-- What is accepted passes both scans, whatever stands before it. -/
theorem IsCondition.exists_runs {ps : List Part} (h : IsCondition ps) :
    ∃ qs, Negates ps qs ∧ ∀ before, ∃ rs, runs before qs = .ok rs := by
  induction h with
  | operand operand =>
    obtain ⟨i, hi⟩ := operand.negates
    exact ⟨_, hi, fun before => exists_runs_item before i rfl⟩
  | adjacent operand rest ih =>
    obtain ⟨i, hi⟩ := operand.negates
    obtain ⟨qs, hqs, hruns⟩ := ih
    obtain ⟨rs, hrs⟩ := hruns .item
    exact ⟨_, hi.append hqs, fun before => exists_runs_item before i hrs⟩
  | @joined ps qs op place operand binary rest ih =>
    obtain ⟨i, hi⟩ := operand.negates
    obtain ⟨qs, hqs, hruns⟩ := ih
    obtain ⟨rs, hrs⟩ := hruns (.logic op place)
    have hjoint : runs .item (.logic op place :: qs) =
        .ok (if op = .or then [] :: rs else rs) := by
      rw [runs, hrs]
      rfl
    exact ⟨_, hi.joined binary place hqs, fun before => exists_runs_item before i hjoint⟩

private theorem terms_negations {ps qs : List Part} (h : negations ps = .ok qs) :
    qs.flatMap terms = ps.flatMap terms := by
  induction ps using negations.induct generalizing qs with
  | case1 =>
    cases h
    rfl
  | case2 place i rest ih =>
    rw [negations] at h
    obtain ⟨qs, hqs, h⟩ := bind_eq_ok.mp h
    cases h
    simp [ih hqs, terms, Item.terms, Item.termsList_singleton]
  | case3 | case4 => cases h
  | case5 part rest hitem hlogic hlast ih =>
    rw [negations.eq_5 part rest hitem hlogic hlast] at h
    obtain ⟨qs, hqs, h⟩ := bind_eq_ok.mp h
    cases h
    rw [List.flatMap_cons, List.flatMap_cons, ih hqs]

private theorem terms_runs {before : Before} {ps : List Part} {rs : List (List Item)}
    (h : runs before ps = .ok rs) : Item.termsList rs.flatten = ps.flatMap terms := by
  induction ps generalizing before rs with
  | nil =>
    cases before with
    | logic => cases h
    | _ =>
      cases h
      rfl
  | cons p ps ih =>
    cases p with
    | item i =>
      obtain ⟨rest, hrest, rfl⟩ := runs_item_eq_ok.mp h
      rw [flatten_pushItem, Item.termsList, ih hrest]
      rfl
    | logic op place =>
      cases before with
      | nothing => cases h
      | logic => cases h
      | item =>
        obtain ⟨others, hothers, h⟩ := bind_eq_ok.mp h
        cases h
        have hrest := ih hothers
        split <;> exact hrest

private theorem terms_joinRuns (rs : List (List Item)) :
    (joinRuns rs).terms = Item.termsList rs.flatten := by
  have hrun (run : List Item) : (Operator.merge {} .and run).terms = Item.termsList run :=
    Operator.terms_merge {} .and run
  have hfold (acc : Operator) (rs : List (List Item)) :
      (rs.foldl (fun acc run => acc.merge .or [(Operator.merge {} .and run).toItem]) acc).terms =
        acc.terms ++ Item.termsList rs.flatten := by
    induction rs generalizing acc with
    | nil => simp [Item.termsList]
    | cons run rs ih =>
      rw [List.foldl_cons, ih, Operator.terms_merge, Item.termsList_singleton, ← Operator.terms,
        hrun, List.flatten_cons, Item.termsList_append, List.append_assoc]
  cases rs with
  | nil => rfl
  | cons run rs =>
    rw [joinRuns, hfold, hrun, List.flatten_cons, Item.termsList_append]

/-- Parts can be combined exactly if there are none or they are operands with at most an `and` or an
`or` between two of them. The terms of the combined filter are then those of the items, in order. -/
theorem combine_language (ps : List Part) :
    ((∃ o, combine ps = .ok o) ↔ ps = [] ∨ IsCondition ps) ∧
      ∀ o, combine ps = .ok o → o.terms = ps.flatMap terms := by
  refine ⟨⟨?_, ?_⟩, ?_⟩
  · rintro ⟨o, h⟩
    obtain ⟨qs, hn, h⟩ := bind_eq_ok.mp h
    obtain ⟨rs, hr, -⟩ := bind_eq_ok.mp h
    exact admits_of_runs hn hr
  · rintro (rfl | h)
    · exact ⟨_, rfl⟩
    · obtain ⟨qs, hn, hruns⟩ := h.exists_runs
      obtain ⟨rs, hr⟩ := hruns .nothing
      exact ⟨_, bind_eq_ok.mpr ⟨qs, hn.negations_eq, bind_eq_ok.mpr ⟨rs, hr, rfl⟩⟩⟩
  · intro o h
    obtain ⟨qs, hn, h⟩ := bind_eq_ok.mp h
    obtain ⟨rs, hr, h⟩ := bind_eq_ok.mp h
    cases h
    rw [Operator.terms_simplify, terms_joinRuns, terms_runs hr, terms_negations hn]

open Operator.Sample in
/-- Adjacent operands, a negation after an `or`, and an item that is an empty operator. -/
theorem combine_language_sample :
    IsCondition [.item (nullTest "a"), .item (.operator .or []), .logic .or ⟨⟨2, 4⟩, "or"⟩,
        .logic .not ⟨⟨5, 8⟩, "not"⟩, .item (.operator .and [nullTest "b", nullTest "c"])] ∧
      ∃ o, combine [.item (nullTest "a"), .item (.operator .or []), .logic .or ⟨⟨2, 4⟩, "or"⟩,
          .logic .not ⟨⟨5, 8⟩, "not"⟩, .item (.operator .and [nullTest "b", nullTest "c"])] = .ok o ∧
        o.terms.map (·.field) = ["a", "b", "c"] := by
  have hcondition : IsCondition [.item (nullTest "a"), .item (.operator .or []),
      .logic .or ⟨⟨2, 4⟩, "or"⟩, .logic .not ⟨⟨5, 8⟩, "not"⟩,
      .item (.operator .and [nullTest "b", nullTest "c"])] :=
    .adjacent (.item _) (.joined _ (.item _) (by decide) (.operand (.not _ _)))
  obtain ⟨haccepts, hterms⟩ := combine_language _
  obtain ⟨o, ho⟩ := haccepts.mpr (.inr hcondition)
  exact ⟨hcondition, o, ho, by rw [hterms o ho]; rfl⟩

end PipeQuery.Part
