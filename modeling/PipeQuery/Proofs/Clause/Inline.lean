import PipeQuery.Compile
import PipeQuery.Proofs.Filter.Formula
import PipeQuery.Proofs.Filter.Language

/-!
Pipes with connectives after a condition. A clause with such extensions is read as one condition in
which every body stands in brackets and the connectives of the extensions stand between them.
-/
namespace PipeQuery

namespace FilterReader

section
variable {ctx : Context} {note : Bool}

private theorem steady_endTerm (p : Progress) : Steady (p.endTerm ctx note) := by
  rw [Progress.endTerm]
  split
  · exact .pure p
  · refine (Steady.lift _).bind fun t => ?_
    cases note with
    | true => exact ⟨_, fun _ => rfl⟩
    | false => exact ⟨_, fun _ => rfl⟩

private theorem steady_finish (p : Progress) : Steady (p.finish ctx note) := by
  refine (steady_endTerm p).bind fun q => ?_
  cases Part.combine q.parts with
  | error e => exact .throw _
  | ok op => exact .pure op

mutual

private theorem steady_readNode : (n : Node) → (p : Progress) → Steady (readNode ctx note p n)
  | .token t, p => by
    rw [readNode]
    split
    · exact .pure _
    · split
      next => exact (steady_endTerm p).bind fun q => .pure _
      next => exact .pure _
  | .group kind source span children, p => by
    cases kind with
    | bracket opening closing =>
      rw [readNode]
      split
      · refine (steady_readNodes children {}).bind fun q => ?_
        exact (steady_finish q).bind fun op => .pure _
      · exact .pure _
    | _ => exact .pure _

private theorem steady_readNodes :
    (ns : List Node) → (p : Progress) → Steady (readNodes ctx note p ns)
  | [], p => .pure p
  | n :: ns, p => by
    rw [readNodes]
    exact (steady_readNode n p).bind fun q => steady_readNodes ns q

end

/-- The filter of a condition does not depend on the names noted before it. -/
theorem steady_read (nodes : List Node) : Steady (read ctx note nodes) :=
  (steady_readNodes nodes {}).bind steady_finish

end

end FilterReader

namespace Part

inductive Joints : Logic → List Part → Prop where
  | and (place : Place) : Joints .and [.logic .and place]
  | or (place : Place) : Joints .or [.logic .or place]
  | not (place place' : Place) : Joints .not [.logic .and place, .logic .not place']

/-- Parts that go on with the operands, each after the connectives for it. Where the connectives
stand is left open. -/
inductive Row : List (Logic × Item) → List Part → Prop where
  | nil : Row [] []
  | cons {op : Logic} {js : List Part} {i : Item} {operands : List (Logic × Item)} {ps : List Part}
    (joints : Joints op js) (rest : Row operands ps) :
    Row ((op, i) :: operands) (js ++ .item i :: ps)

def runsAfter : List (Logic × Item) → List (List Item)
  | [] => [[]]
  | (.and, i) :: operands => pushItem i (runsAfter operands)
  | (.or, i) :: operands => [] :: pushItem i (runsAfter operands)
  | (.not, i) :: operands => pushItem (.operator .not [i]) (runsAfter operands)

private theorem runs_logic {op : Logic} {place : Place} {i : Item} {qs : List Part}
    {rs : List (List Item)} (h : runs .item qs = .ok rs) :
    runs .item (.logic op place :: .item i :: qs) =
      .ok (if op = .or then [] :: pushItem i rs else pushItem i rs) := by
  rw [runs, runs_item, h]
  rfl

theorem Row.exists_runs {operands : List (Logic × Item)} {ps : List Part}
    (h : Row operands ps) : ∃ qs, Negates ps qs ∧ runs .item qs = .ok (runsAfter operands) := by
  induction h with
  | nil => exact ⟨[], fun rest => by simp, rfl⟩
  | @cons op js i operands ps joints rest ih =>
    obtain ⟨qs, hneg, hruns⟩ := ih
    have hitem := (Negates.item i).append hneg
    cases joints with
    | and place => exact ⟨_, (Negates.logic (by decide) place).append hitem, runs_logic hruns⟩
    | or place => exact ⟨_, (Negates.logic (by decide) place).append hitem, runs_logic hruns⟩
    | not place place' =>
      have hnot := (Negates.not_item place' i).append hneg
      exact ⟨_, (Negates.logic (by decide) place).append hnot, runs_logic hruns⟩

/-- What an item and the operands after it are combined to. -/
theorem Row.combine_eq {operands : List (Logic × Item)} {ps : List Part}
    (h : Row operands ps) (i : Item) :
    combine (.item i :: ps) = .ok (joinRuns (pushItem i (runsAfter operands))).simplify := by
  obtain ⟨qs, hneg, hruns⟩ := h.exists_runs
  have hn : negations (.item i :: ps) = .ok (.item i :: qs) :=
    ((Negates.item i).append hneg).negations_eq
  have hr : runs .nothing (.item i :: qs) = .ok (pushItem i (runsAfter operands)) :=
    runs_item_eq_ok.mpr ⟨_, hruns, rfl⟩
  exact bind_eq_ok.mpr ⟨_, hn, bind_eq_ok.mpr ⟨_, hr, rfl⟩⟩

end Part

namespace Node

def Encloses (n : Node) (nodes : List Node) : Prop :=
  ∃ opening closing source span, n = .group (.bracket opening closing) source span nodes

/-- The connectives that an extension stands for, as they are written between operands. -/
inductive Joints : Logic → List Node → Prop where
  | and {t : Token} (kind : t.kind = .logic .and) : Joints .and [.token t]
  | or {t : Token} (kind : t.kind = .logic .or) : Joints .or [.token t]
  | not {t u : Token} (kind : t.kind = .logic .and) (kind' : u.kind = .logic .not) :
    Joints .not [.token t, .token u]

end Node

/-- The extensions as they are written in one condition: the connectives of each of them, and its
body in brackets. -/
inductive Inlined : List Extension → List Node → Prop where
  | nil : Inlined [] []
  | cons {e : Extension} {es : List Extension} {js ns : List Node} {n : Node}
    (joints : Node.Joints e.op js) (body : n.Encloses e.group.children) (rest : Inlined es ns) :
    Inlined (e :: es) (js ++ n :: ns)

namespace FilterReader

section
variable {ctx : Context} {note : Bool}

private theorem readNodes_logic {op : Logic} {t : Token} (h : t.kind = .logic op)
    (parts : List Part) (ns : List Node) :
    readNodes ctx note ⟨parts, []⟩ (.token t :: ns) =
      readNodes ctx note ⟨parts ++ [.logic op t.place], []⟩ ns := by
  rw [readNodes, readNode, if_neg (by simp [Progress.afterIn]), h]
  rfl

private theorem readNodes_bracket {n : Node} {nodes : List Node} (h : n.Encloses nodes)
    (parts : List Part) (ns : List Node) :
    readNodes ctx note ⟨parts, []⟩ (n :: ns) =
      read ctx note nodes >>= fun o => readNodes ctx note ⟨parts ++ [.item o.toItem], []⟩ ns := by
  obtain ⟨opening, closing, source, span, rfl⟩ := h
  simp [readNodes, readNode, read]

private theorem exists_joints {op : Logic} {js : List Node} (h : Node.Joints op js) :
    ∃ ps, Part.Joints op ps ∧ ∀ parts ns, readNodes ctx note ⟨parts, []⟩ (js ++ ns) =
      readNodes ctx note ⟨parts ++ ps, []⟩ ns := by
  cases h with
  | and kind => exact ⟨_, .and _, readNodes_logic kind⟩
  | or kind => exact ⟨_, .or _, readNodes_logic kind⟩
  | @not t u kind kind' =>
    refine ⟨_, .not t.place u.place, fun parts ns => ?_⟩
    rw [List.cons_append, List.singleton_append, readNodes_logic kind, readNodes_logic kind',
      List.append_assoc]
    rfl

end

end FilterReader

namespace ConditionClause
open FilterReader

section
variable {ctx : Context} {note : Bool}

private theorem joints_connectives (e : Extension) : Part.Joints e.op (connectives e) := by
  rw [connectives]
  cases e.op with
  | and => exact .and _
  | or => exact .or _
  | not => exact .not _ _

/-- Reading extensions one by one and reading them in one condition note the same names, and come to
the same operands. -/
theorem exists_row {extensions : List Extension} {nodes : List Node}
    (h : Inlined extensions nodes)
    (hbodies : ∀ e ∈ extensions, ∃ o, Yields (FilterReader.read ctx note e.group.children) o ∧
      o.isEmpty = false) :
    ∃ operands ps ps', Part.Row operands ps ∧ Part.Row operands ps' ∧
      ∀ names, ∃ names', (readExtensions ctx note extensions).run.run names = (.ok ps, names') ∧
        ∀ parts, (readNodes ctx note ⟨parts, []⟩ nodes).run.run names =
          (.ok ⟨parts ++ ps', []⟩, names') := by
  induction h with
  | nil =>
    refine ⟨[], [], [], .nil, .nil, fun names => ⟨names, rfl, fun parts => ?_⟩⟩
    rw [List.append_nil]
    rfl
  | @cons e es js ns n joints body rest ih =>
    obtain ⟨⟨o, hread, hne⟩, hbodies⟩ := List.forall_mem_cons.mp hbodies
    obtain ⟨operands, ps, ps', hps, hps', hrest⟩ := ih hbodies
    obtain ⟨qs, hqs, hjoints⟩ := exists_joints joints
    refine ⟨(e.op, o.toItem) :: operands, _, _, .cons (joints_connectives e) hps,
      .cons hqs hps', ?_⟩
    intro names
    -- Both readings start with the body of the first extension.
    obtain ⟨names₁, hbody⟩ := hread names
    obtain ⟨names₂, hextensions, hnodes⟩ := hrest names₁
    refine ⟨names₂, ?_, fun parts => ?_⟩
    · have hfirst : (readExtension ctx note e).run.run names =
          (.ok (connectives e ++ [.item o.toItem]), names₁) := by
        rw [readExtension, run_bind_of_eq_ok hbody, hne]
        rfl
      rw [readExtensions, run_bind_of_eq_ok hfirst, run_bind_of_eq_ok hextensions,
        List.append_assoc]
      rfl
    · rw [hjoints, readNodes_bracket body, run_bind_of_eq_ok hbody, hnodes]
      simp

/-- A clause with extensions is read as the one condition in which its body and theirs stand in
brackets, with the connectives of the extensions between them. -/
theorem read_eq_of_inlined {clause : Group} {extensions : List Extension} {n : Node}
    {nodes : List Node} (hclause : n.Encloses clause.children)
    (hextensions : Inlined extensions nodes)
    (hbodies : ∀ e ∈ extensions, ∃ o,
      Yields (FilterReader.read ctx note e.group.children) o ∧ o.isEmpty = false) :
    read ctx note clause extensions = FilterReader.read ctx note (n :: nodes) := by
  obtain ⟨operands, ps, ps', hps, hps', hrow⟩ := exists_row hextensions hbodies
  have hinline : FilterReader.read ctx note (n :: nodes) =
      FilterReader.read ctx note clause.children >>= fun o =>
        readNodes ctx note ⟨[.item o.toItem], []⟩ nodes >>= Progress.finish ctx note := by
    rw [FilterReader.read, readNodes_bracket hclause, bind_assoc]
    rfl
  rw [hinline, read]
  apply ExceptT.ext
  apply StateT.ext
  intro names
  cases hbase : (FilterReader.read ctx note clause.children).run.run names with
  | mk result names₁ =>
    cases result with
    | error e => rw [run_bind_of_eq_error hbase, run_bind_of_eq_error hbase]
    | ok o =>
      -- The parts differ only in the places of the connectives, which the filter does not show.
      obtain ⟨names₂, hpipes, hnodes⟩ := hrow names₁
      have hdone : Progress.endTerm ctx note ⟨[.item o.toItem] ++ ps', []⟩ =
          pure ⟨.item o.toItem :: ps', []⟩ := rfl
      rw [run_bind_of_eq_ok hbase, run_bind_of_eq_ok hbase, run_bind_of_eq_ok hpipes,
        run_bind_of_eq_ok (hnodes _), Progress.finish, hdone, pure_bind, hps.combine_eq,
        hps'.combine_eq]

/-- Extensions say the same as connectives between brackets. A clause and extensions whose bodies
come to filters that are not empty are read as the one condition in which all bodies stand in
brackets, with the same filter or refusal and the same names noted; the clause makes its fields of
these names. -/
theorem read_inlined {clause : Group} {extensions : List Extension} {n : Node} {nodes : List Node}
    (hclause : n.Encloses clause.children) (hextensions : Inlined extensions nodes)
    (hbodies : ∀ e ∈ extensions, ∃ o,
      Returns (FilterReader.read ctx note e.group.children) o ∧ o.isEmpty = false) :
    read ctx note clause extensions = FilterReader.read ctx note (n :: nodes) ∧
      ∀ o names, (FilterReader.read ctx note (n :: nodes)).run [] = (.ok o, names) →
        Draft.readCondition ctx note clause extensions =
          .ok (o, names.map (⟨·, clause.place⟩)) := by
  have hyields : ∀ e ∈ extensions, ∃ o,
      Yields (FilterReader.read ctx note e.group.children) o ∧ o.isEmpty = false := by
    intro e he
    obtain ⟨o, hreturns, hne⟩ := hbodies e he
    exact ⟨o, (steady_read _).yields hreturns, hne⟩
  have hread := read_eq_of_inlined hclause hextensions hyields
  refine ⟨hread, fun o names hrun => ?_⟩
  rw [Draft.readCondition, hread, hrun]

end

end ConditionClause

namespace Inlined.Sample

def text : String := "| having a = 1 | or b in (2) | not c is null"

def token (kind : TokenKind) (start stop : Nat) : Token := ⟨kind, text, ⟨start, stop⟩⟩

def clause : Group :=
  ⟨.pipe (token .pipe 0 1) (token .command 2 8), text, ⟨0, 14⟩,
    [.token (token .word 9 10), .token (token (.relation .equal) 11 12),
      .token (token .number 13 14)]⟩

def membership : Group :=
  ⟨.pipe (token .pipe 15 16) (token .command 17 19), text, ⟨15, 28⟩,
    [.token (token .word 20 21), .token (token .inList 22 24),
      .group (.bracket (token .openBracket 25 26) (token .closeBracket 27 28)) text ⟨25, 28⟩
        [.token (token .number 26 27)]]⟩

def nullTest : Group :=
  ⟨.pipe (token .pipe 29 30) (token .command 31 34), text, ⟨29, 44⟩,
    [.token (token .word 35 36), .token (token .isNull 37 44)]⟩

def extensions : List Extension :=
  [⟨.or, token .command 17 19, membership⟩, ⟨.not, token .command 31 34, nullTest⟩]

def bracket (nodes : List Node) : Node :=
  .group (.bracket ⟨.openBracket, "()", ⟨0, 1⟩⟩ ⟨.closeBracket, "()", ⟨1, 2⟩⟩) "()" ⟨0, 2⟩ nodes

def connective (op : Logic) (name : String) : Node := .token ⟨.logic op, name, ⟨0, name.length⟩⟩

def nodes : List Node :=
  [connective .or "or", bracket membership.children, connective .and "and", connective .not "not",
    bracket nullTest.children]

def condition : Operator :=
  ⟨.or, [.term ⟨"a", .relation .equal, some "1", none⟩,
    .operator .and [.term ⟨"b", .inList, some "2", none⟩,
      .operator .not [.term ⟨"c", .isNull, none, none⟩]]]⟩

end Inlined.Sample

open Inlined.Sample in
theorem ConditionClause.read_inlined_sample :
    (Group.ofTokens (Lexer.tokens text)).toOption.map (attachExtensions ·.children) =
        some ([], [(clause.toNode, extensions)]) ∧
      read .bare true clause extensions =
        FilterReader.read .bare true (bracket clause.children :: nodes) ∧
      Draft.readCondition .bare true clause extensions =
        .ok (condition, ["a", "b", "c"].map (⟨·, clause.place⟩)) := by
  have hbracket (nodes : List Node) : (bracket nodes).Encloses nodes := ⟨_, _, _, _, rfl⟩
  have hor : Node.Joints .or [connective .or "or"] := .or rfl
  have hnot : Node.Joints .not [connective .and "and", connective .not "not"] := .not rfl rfl
  have hlast : Inlined [⟨.not, token .command 31 34, nullTest⟩] _ :=
    .cons hnot (hbracket nullTest.children) .nil
  have hinline := Inlined.cons (e := ⟨.or, token .command 17 19, membership⟩) hor
    (hbracket membership.children) hlast
  have hbodies : ∀ e ∈ extensions, ∃ o,
      Returns (FilterReader.read .bare true e.group.children) o ∧ o.isEmpty = false := by
    rw [extensions, List.forall_mem_cons, List.forall_mem_singleton]
    exact ⟨⟨_, ⟨[], _, rfl⟩, rfl⟩, ⟨_, ⟨[], _, rfl⟩, rfl⟩⟩
  obtain ⟨hread, hfields⟩ := read_inlined (hbracket clause.children) hinline hbodies
  exact ⟨by decide +kernel, hread, hfields condition _ rfl⟩

end PipeQuery
