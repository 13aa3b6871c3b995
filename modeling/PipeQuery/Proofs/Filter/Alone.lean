import PipeQuery.Proofs.Clause.Alone
import PipeQuery.Proofs.Filter.Language

/-!
Conditions hang on what their nodes show, not on where these stand: the terms, the connectives between
them and the names that they refer to are the same when every node stands on its own.
-/
namespace PipeQuery

namespace TermReader

section
variable {ctx : Context} (hdate : ctx.services.readDate = DateExpression.read)

include hdate in
private theorem readValue_alone (ns : List Node) :
    (readValue ctx (ns.map Node.alone)).toOption = (readValue ctx ns).toOption :=
  toOption_eq_of_imp (fun _ => readValue_congr (Node.views_alone ns) hdate)
    fun _ => readValue_congr (Node.views_alone ns).symm hdate

def ListBefore.alone : ListBefore → ListBefore
  | .nothing => .nothing
  | .comma n => .comma n.alone
  | .value => .value

private theorem readList_alone (before : ListBefore) (ns : List Node) :
    (readList before.alone (ns.map Node.alone)).toOption = (readList before ns).toOption := by
  induction ns generalizing before with
  | nil =>
    cases before with
    | _ => rfl
  | cons n ns ih =>
    have hcomma := ih (.comma n)
    have hvalue := ih .value
    simp only [ListBefore.alone] at hcomma hvalue
    unfold readList
    simp only [List.map_cons, Node.kind_alone, Node.unescaped_alone]
    split
    · cases before with
      | value => exact hcomma
      | _ => rfl
    · split
      · cases before with
        | value => rfl
        | _ => simp only [ListBefore.alone, toOption_bind, hvalue]
      · rfl

private theorem readDictionary_alone (field : String) (word : Node) (ns : List Node) :
    (readDictionary ctx field word.alone (ns.map Node.alone)).toOption =
      (readDictionary ctx field word ns).toOption := by
  cases ns with
  | nil => rfl
  | cons name rest =>
    cases rest with
    | cons extra rest => rfl
    | nil =>
      simp only [readDictionary, List.map_cons, List.map_nil, Node.isString_alone,
        Node.unescaped_alone]
      split
      · cases ctx.services.resolveDocument dictionaryType (Text.trim name.unescaped) with
        | ok doc => rfl
        | error e => rfl
      · rfl

private theorem readMembership_alone (field : String) (value : Node) (rest : List Node) :
    (readMembership ctx field value.alone (rest.map Node.alone)).toOption =
      (readMembership ctx field value rest).toOption := by
  rw [readMembership, readMembership, Node.kind_alone, Node.bracket?_alone]
  split
  · exact readDictionary_alone field value rest
  · cases value.bracket? with
    | none => rfl
    | some g =>
      cases rest with
      | cons extra rest => rfl
      | nil =>
        have hlist := readList_alone .nothing g.children
        simp only [ListBefore.alone] at hlist
        simp only [Option.map_some, List.map_nil, Group.alone, toOption_bind, hlist]

private theorem isSeparator_alone : isSeparator ∘ Node.alone = isSeparator := by
  funext n
  exact congrArg (· == TokenKind.betweenAnd) n.kind_alone

private theorem takeWhile_alone (ns : List Node) :
    (ns.map Node.alone).takeWhile (!isSeparator ·) =
      (ns.takeWhile (!isSeparator ·)).map Node.alone := by
  rw [List.takeWhile_map]
  exact congrArg (fun p => (ns.takeWhile (!p ·)).map Node.alone) isSeparator_alone

private theorem dropWhile_alone (ns : List Node) :
    (ns.map Node.alone).dropWhile (!isSeparator ·) =
      (ns.dropWhile (!isSeparator ·)).map Node.alone := by
  rw [List.dropWhile_map]
  exact congrArg (fun p => (ns.dropWhile (!p ·)).map Node.alone) isSeparator_alone

include hdate in
private theorem readComparison_alone (ns : List Node) :
    (readComparison ctx (ns.map Node.alone)).toOption = (readComparison ctx ns).toOption := by
  rw [readComparison, readComparison, takeWhile_alone, dropWhile_alone, toOption_bind,
    toOption_bind, readValue_alone hdate]
  cases ns.dropWhile (!isSeparator ·) with
  | nil => rfl
  | cons extra rest => rfl

include hdate in
private theorem readBounds_alone (condition : Node) (ns : List Node) :
    (readBounds ctx condition.alone (ns.map Node.alone)).toOption =
      (readBounds ctx condition ns).toOption := by
  rw [readBounds, readBounds, takeWhile_alone, dropWhile_alone, toOption_bind, toOption_bind,
    readValue_alone hdate]
  refine Option.bind_congr fun lower _ => ?_
  cases ns.dropWhile (!isSeparator ·) with
  | nil => rfl
  | cons separator rest =>
    simp only [List.map_cons, takeWhile_alone, dropWhile_alone, toOption_bind,
      readValue_alone hdate, List.isEmpty_map]
    refine Option.bind_congr fun upper _ => ?_
    split
    · rfl
    · cases rest.dropWhile (!isSeparator ·) with
      | nil => rfl
      | cons extra rest => rfl

include hdate in
private theorem readValues_alone (field condition : Node) (c : Condition) (values : List Node) :
    (readValues ctx field.alone condition.alone c (values.map Node.alone)).toOption =
      (readValues ctx field condition c values).toOption := by
  cases values with
  | nil =>
    cases c with
    | isNull | isNotNull => simp only [readValues, List.map_nil, Node.unescaped_alone]
    | _ => rfl
  | cons value rest =>
    have hbounds := readBounds_alone hdate condition (value :: rest)
    have hcomparison := readComparison_alone hdate (value :: rest)
    rw [List.map_cons] at hbounds hcomparison
    cases c with
    | isNull | isNotNull => rfl
    | inList =>
      simp only [readValues, List.map_cons, Node.unescaped_alone]
      exact readMembership_alone field.unescaped value rest
    | between =>
      simp only [readValues, List.map_cons, Node.unescaped_alone, toOption_bind, hbounds]
    | _ => simp only [readValues, List.map_cons, Node.unescaped_alone, toOption_bind, hcomparison]

include hdate in
/-- A term is read by what its nodes show. -/
theorem read_alone (ns : List Node) :
    (read ctx (ns.map Node.alone)).toOption = (read ctx ns).toOption := by
  cases ns with
  | nil => rfl
  | cons field rest =>
    unfold read
    simp only [List.map_cons, Node.isString_alone, Node.kind_alone]
    split
    · rfl
    · cases rest with
      | nil => rfl
      | cons condition values =>
        simp only [List.map_cons, Node.kind_alone]
        cases Condition.ofKind? condition.kind with
        | none => rfl
        | some c => exact readValues_alone hdate field condition c values

private theorem referredNames_alone (ns : List Node) :
    referredNames (ns.map Node.alone) = referredNames ns := by
  cases ns with
  | nil => rfl
  | cons field rest =>
    cases rest with
    | nil => simp only [referredNames, List.map_cons, List.map_nil, Node.unescaped_alone]
    | cons condition rest =>
      cases rest with
      | nil => simp only [referredNames, List.map_cons, List.map_nil, Node.unescaped_alone]
      | cons value rest =>
        simp only [referredNames, List.map_cons, Node.kind_alone, Node.unescaped_alone]

end

end TermReader

namespace Part

def alone : Part → Part
  | .item i => .item i
  | .logic op place => .logic op place.alone

private theorem negations_alone (ps : List Part) :
    (negations (ps.map alone)).toOption = (negations ps).toOption.map (List.map alone) := by
  induction ps using negations.induct with
  | case1 => rfl
  | case2 place i rest ih =>
    simp only [List.map_cons, alone, negations, toOption_bind, ih]
    cases (negations rest).toOption with
    | none => rfl
    | some qs => rfl
  | case3 place op place' rest => rfl
  | case4 place => rfl
  | case5 part rest hitem hlogic hlast ih =>
    have hkept : negations (part :: rest) = (negations rest).map (part :: ·) ∧
        negations (part.alone :: rest.map alone) =
          (negations (rest.map alone)).map (part.alone :: ·) := by
      cases part with
      | item i => exact ⟨rfl, rfl⟩
      | logic op place =>
        cases op with
        | and | or => exact ⟨rfl, rfl⟩
        | not =>
          cases rest with
          | nil => exact (hlast place rfl rfl).elim
          | cons next rest =>
            cases next with
            | item i => exact (hitem place i rest rfl rfl).elim
            | logic op' place' => exact (hlogic place op' place' rest rfl rfl).elim
    rw [List.map_cons, hkept.1, hkept.2, toOption_map, toOption_map, ih, Option.map_map,
      Option.map_map]
    rfl

def Before.alone : Before → Before
  | .nothing => .nothing
  | .item => .item
  | .logic op place => .logic op place.alone

private theorem runs_alone (before : Before) (ps : List Part) :
    (runs before.alone (ps.map alone)).toOption = (runs before ps).toOption := by
  induction ps generalizing before with
  | nil =>
    cases before with
    | _ => rfl
  | cons part ps ih =>
    cases part with
    | item i =>
      have hitem := ih .item
      simp only [Before.alone] at hitem
      rw [List.map_cons, alone, runs_item, runs_item, toOption_map, toOption_map, hitem]
    | logic op place =>
      have hlogic := ih (.logic op place)
      cases before with
      | nothing => rfl
      | logic previous place' => rfl
      | item =>
        simp only [List.map_cons, alone, Before.alone, runs, toOption_bind] at hlogic ⊢
        rw [hlogic]

/-- Parts are combined by what they are, not by where they stand. -/
theorem combine_alone (ps : List Part) :
    (combine (ps.map alone)).toOption = (combine ps).toOption := by
  have hruns := runs_alone .nothing
  simp only [Before.alone] at hruns
  simp only [combine, toOption_bind, negations_alone, Option.bind_map, Function.comp_def, hruns]

end Part

namespace FilterReader

/-- What a reading gives and what has been noted by then, unless it fails. -/
def outcome {α : Type} (x : Reading α) (names : List String) : Option (α × List String) :=
  (x.run.run names).1.toOption.map (·, (x.run.run names).2)

section
variable {α β : Type}

theorem outcome_pure (a : α) (names : List String) : outcome (pure a) names = some (a, names) := rfl

theorem outcome_bind (x : Reading α) (f : α → Reading β) (names : List String) :
    outcome (x >>= f) names = (outcome x names).bind fun r => outcome (f r.1) r.2 := by
  cases hx : x.run.run names with
  | mk r names' =>
    cases r with
    | error e =>
      simp only [outcome, run_bind_of_eq_error hx, hx]
      rfl
    | ok a =>
      simp only [outcome, run_bind_of_eq_ok hx, hx]
      rfl

private theorem outcome_lift (x : Result α) (names : List String) :
    outcome (liftM x) names = x.toOption.map (·, names) := by
  cases x with
  | error e => rfl
  | ok a => rfl

end

def Progress.alone (p : Progress) : Progress := ⟨p.parts.map Part.alone, p.term.map Node.alone⟩

/-- The second reading gives what the first one gives, with each node on its own, and notes the
same. -/
def SameAlone (x y : Reading Progress) : Prop :=
  ∀ names, outcome y names = (outcome x names).map fun r => (r.1.alone, r.2)

section
variable {ctx : Context} {note : Bool}

private theorem push_alone (p : Progress) (n : Node) : p.alone.push n.alone = (p.push n).alone := by
  simp only [Progress.push, Progress.alone, List.map_append, List.map_cons, List.map_nil]

private theorem afterIn_alone (p : Progress) : p.alone.afterIn = p.afterIn := by
  simp only [Progress.afterIn, Progress.alone, List.getLast?_map, Option.any_map,
    Node.kind_alone]

theorem SameAlone.pure (p : Progress) :
    SameAlone (Pure.pure p : Reading Progress) (Pure.pure p.alone) :=
  fun _ => rfl

theorem SameAlone.bind {x y : Reading Progress} {f g : Progress → Reading Progress}
    (h : SameAlone x y) (hf : ∀ p, SameAlone (f p) (g p.alone)) : SameAlone (x >>= f) (y >>= g) := by
  intro names
  rw [outcome_bind, outcome_bind, h, Option.map_bind, Option.bind_map]
  exact Option.bind_congr fun r _ => hf r.1 r.2

private theorem outcome_endTerm (p : Progress) (names : List String) :
    outcome (p.endTerm ctx note) names =
      if p.term.isEmpty then some (p, names)
      else (TermReader.read ctx p.term).toOption.map fun t =>
        (⟨p.parts ++ [.item (.term t)], []⟩,
          if note then names ++ TermReader.referredNames p.term else names) := by
  rw [Progress.endTerm]
  split
  · rfl
  · rw [outcome_bind, outcome_lift]
    cases TermReader.read ctx p.term with
    | error e => rfl
    | ok t =>
      cases note with
      | true => rfl
      | false => rfl

private theorem outcome_finish (p : Progress) (names : List String) :
    outcome (p.finish ctx note) names =
      (outcome (p.endTerm ctx note) names).bind fun r =>
        (Part.combine r.1.parts).toOption.map (·, r.2) := by
  rw [Progress.finish, outcome_bind]
  refine Option.bind_congr fun r _ => ?_
  cases Part.combine r.1.parts with
  | ok op => rfl
  | error e => rfl

section
variable (hdate : ctx.services.readDate = DateExpression.read)
include hdate

private theorem sameAlone_endTerm (p : Progress) :
    SameAlone (p.endTerm ctx note) (p.alone.endTerm ctx note) := by
  intro names
  simp only [outcome_endTerm, Progress.alone, List.isEmpty_map, TermReader.read_alone hdate,
    TermReader.referredNames_alone]
  split
  · rfl
  · simp only [Option.map_map, Function.comp_def, List.map_append, List.map_cons, List.map_nil,
      Part.alone]

private theorem outcome_finish_alone (p : Progress) (names : List String) :
    outcome (p.alone.finish ctx note) names = outcome (p.finish ctx note) names := by
  rw [outcome_finish, outcome_finish, sameAlone_endTerm hdate, Option.bind_map]
  refine Option.bind_congr fun r _ => ?_
  rw [Function.comp_apply, Progress.alone, Part.combine_alone]

end

mutual

private theorem sameAlone_readNode (hdate : ctx.services.readDate = DateExpression.read) :
    (n : Node) → (p : Progress) →
      SameAlone (readNode ctx note p n) (readNode ctx note p.alone n.alone)
  | .token t, p => by
    have hpush : SameAlone (pure (p.push (.token t)) : Reading Progress)
        (pure (p.alone.push (Node.token t).alone)) := by
      rw [push_alone]
      exact .pure _
    rw [Node.alone] at hpush ⊢
    rw [readNode, readNode, afterIn_alone, Token.kind_alone, Token.place_alone]
    split
    · exact hpush
    · split
      · refine (sameAlone_endTerm hdate p).bind fun p names => ?_
        simp only [outcome_pure, Option.map_some, Progress.alone, List.map_append, List.map_cons,
          List.map_nil, Part.alone]
      · exact hpush
  | .group kind source span children, p => by
    have hpush : SameAlone (pure (p.push (.group kind source span children)) : Reading Progress)
        (pure (p.alone.push (Node.group kind source span children).alone)) := by
      rw [push_alone]
      exact .pure _
    have hempty : p.alone.term.isEmpty = p.term.isEmpty := List.isEmpty_map
    rw [Node.alone_group] at hpush ⊢
    cases kind with
    | bracket opening closing =>
      simp only [GroupKind.alone] at hpush ⊢
      rw [readNode, readNode, hempty]
      split
      · intro names
        have hchildren : SameAlone (readNodes ctx note {} children)
            (readNodes ctx note {} (children.map Node.alone)) :=
          sameAlone_readNodes hdate children {}
        simp only [outcome_bind, hchildren names, Option.bind_map, Function.comp_def,
          outcome_finish_alone hdate, Option.map_bind]
        simp only [outcome_pure, Option.map_some, Progress.alone, List.map_append, List.map_cons,
          List.map_nil, Part.alone]
      · exact hpush
    | _ => exact hpush

private theorem sameAlone_readNodes (hdate : ctx.services.readDate = DateExpression.read) :
    (ns : List Node) → (p : Progress) →
      SameAlone (readNodes ctx note p ns) (readNodes ctx note p.alone (ns.map Node.alone))
  | [], p => .pure p
  | n :: ns, p => by
    rw [List.map_cons, readNodes, readNodes]
    exact (sameAlone_readNode hdate n p).bind (sameAlone_readNodes hdate ns)

end

/-- A condition is read by what its nodes show. -/
theorem outcome_read_alone (hdate : ctx.services.readDate = DateExpression.read) (ns : List Node)
    (names : List String) :
    outcome (read ctx note (ns.map Node.alone)) names = outcome (read ctx note ns) names := by
  rw [read, read, outcome_bind, outcome_bind]
  have hnodes : SameAlone (readNodes ctx note {} ns) (readNodes ctx note {} (ns.map Node.alone)) :=
    sameAlone_readNodes hdate ns {}
  rw [hnodes, Option.bind_map]
  exact Option.bind_congr fun r _ => outcome_finish_alone hdate r.1 r.2

end

end FilterReader

end PipeQuery
