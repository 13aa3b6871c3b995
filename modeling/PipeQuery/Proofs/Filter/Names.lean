import PipeQuery.Proofs.Filter.Bounds

/-!
The names that a term notes while a `having` is read. They are the field and a bare name that is the
first value. A bare name as the upper bound of a `between` is not noted.
-/
namespace PipeQuery

def Condition.operandCount : Condition → Nat
  | .relation _ => 1
  | .between => 2
  | .isNull | .isNotNull | .inList | .inDictionary => 0

/-- A date does not start with a name. -/
theorem DateExpression.read_of_name {n : Node} (h : n.kind = .word ∨ n.kind = .param)
    (reference : Instant) (ns : List Node) :
    read reference (n :: ns) = .error (.rejected (.unexpected n.text)) := by
  have hshift : shiftAll reference (n :: ns) = .error (.rejected (.unexpected n.text)) := by
    rw [shiftAll.eq_def]
    rcases h with h | h <;> simp only [h]
  rw [← hshift]
  cases n with
  | token t =>
    have hkind : t.kind ≠ .dateTime := by
      intro hdate
      rcases h with h | h <;> cases hdate.symm.trans h
    simp only [read, if_neg hkind]
  | group kind source span children =>
    cases kind with
    | function => rcases h with h | h <;> cases h
    | root | bracket | pipe | clause => rfl

namespace TermReader

/-- The values after a condition, which stand between separators. -/
def operands (values : List Node) : List (List Node) := values.splitOnP isSeparator

def loneName : List Node → List String
  | [n] => if n.kind = .word ∨ n.kind = .param then [n.unescaped] else []
  | _ => []

section
variable {ctx : Context} {nodes values : List Node} {t : Term} {x : String}

/-- A number does not start with a name. -/
theorem checkNumber_of_name {n : Node} (h : n.kind = .word ∨ n.kind = .param) (signed seen : Bool)
    (ns : List Node) : checkNumber signed seen (n :: ns) = n.place.reject .unexpectedToken := by
  rw [checkNumber.eq_def]
  rcases h with h | h <;> simp only [h]

/-- A value that starts with a name is that name. -/
theorem eq_nil_of_readValue (hdate : ctx.services.readDate = DateExpression.read) {n : Node}
    {ns : List Node} (hname : n.kind = .word ∨ n.kind = .param)
    (h : readValue ctx (n :: ns) = .ok x) : ns = [] := by
  cases ns with
  | nil => rfl
  | cons extra others =>
    -- More than one node has to be a date or a number.
    rw [readValue] at h
    split at h
    · split at h
      · cases h
      · cases h
    · obtain ⟨_, hliteral, -⟩ := bind_eq_ok.mp h
      rw [checkLiteral] at hliteral
      split at hliteral
      · rw [hdate, DateExpression.read_of_name hname] at hliteral
        cases hliteral
      · split at hliteral
        · rw [checkNumber_of_name hname] at hliteral
          cases hliteral
        · cases hliteral

private theorem exists_operands (values : List Node) :
    ∃ others, operands values = values.takeWhile (!isSeparator ·) :: others := by
  induction values with
  | nil => exact ⟨[], rfl⟩
  | cons n values ih =>
    obtain ⟨others, hothers⟩ := ih
    rw [operands, List.splitOnP_cons_eq_if_modifyHead, ← operands, hothers]
    by_cases hn : isSeparator n = true
    · exact ⟨_ :: others, by rw [if_pos hn, List.takeWhile_cons_of_neg (by simpa using hn)]⟩
    · exact ⟨others, by
        rw [if_neg hn, List.takeWhile_cons_of_pos (by simpa using hn), List.modifyHead_cons]⟩

/-- The names of a term are its field and the name that makes up the first value. -/
theorem referredNames_eq (hdate : ctx.services.readDate = DateExpression.read)
    (h : readValue ctx (values.takeWhile (!isSeparator ·)) = .ok x) (field condition : Node) :
    referredNames (field :: condition :: values) =
      field.unescaped :: loneName (values.takeWhile (!isSeparator ·)) := by
  cases values with
  | nil => rfl
  | cons n values =>
    -- The node after the condition is the separator or the start of the first value.
    rw [referredNames]
    by_cases hn : isSeparator n = true
    · have hkind : n.kind = .betweenAnd := by simpa [isSeparator] using hn
      rw [List.takeWhile_cons_of_neg (by simpa using hn), if_neg (by simp [hkind])]
      rfl
    · rw [List.takeWhile_cons_of_pos (by simpa using hn)] at h ⊢
      by_cases hname : n.kind = .word ∨ n.kind = .param
      · rw [eq_nil_of_readValue hdate hname h, loneName, if_pos hname, if_pos hname]
      · rw [if_neg hname]
        cases values.takeWhile (!isSeparator ·) with
        | nil => rw [loneName, if_neg hname]
        | cons extra others => rfl

private theorem operands_of_readComparison (h : readComparison ctx values = .ok x) :
    (∃ y, readValue ctx (values.takeWhile (!isSeparator ·)) = .ok y) ∧
      (operands values).length = 1 := by
  obtain ⟨y, hy, h⟩ := bind_eq_ok.mp h
  refine ⟨⟨y, hy⟩, ?_⟩
  cases hdrop : values.dropWhile (!isSeparator ·) with
  | cons extra others =>
    rw [hdrop] at h
    cases h
  | nil =>
    have hnone : ∀ n ∈ values, isSeparator n = false := by
      rw [← takeWhile_eq_self_of_dropWhile hdrop]
      exact isSeparator_of_mem_takeWhile
    rw [operands, List.splitOnP_eq_singleton hnone]
    rfl

private theorem operands_of_readBounds {condition : Node}
    (h : readBounds ctx condition values = .ok x) :
    (∃ y, readValue ctx (values.takeWhile (!isSeparator ·)) = .ok y) ∧
      (operands values).length = 2 := by
  obtain ⟨lower, separator, upper, -, -, rfl, hseparator, hsingle, -⟩ := readBounds_eq_ok_iff.mp h
  obtain ⟨y, hy, -⟩ := bind_eq_ok.mp h
  refine ⟨⟨y, hy⟩, ?_⟩
  obtain ⟨hlower, hupper⟩ := List.forall_mem_append.mp hsingle
  rw [operands, List.splitOnP_append_cons _ _ (by simp [isSeparator, hseparator]),
    List.splitOnP_eq_singleton fun n hn => isSeparator_eq_false_iff.mpr (hlower n hn),
    List.splitOnP_eq_singleton fun n hn => isSeparator_eq_false_iff.mpr (hupper n hn)]
  rfl

/-- A term that compares with values is read from a field, a condition and as many values as the
condition asks for. -/
theorem operands_of_read (h : read ctx nodes = .ok t) (hcount : 0 < t.condition.operandCount) :
    ∃ field condition values y, nodes = field :: condition :: values ∧ t.field = field.unescaped ∧
      readValue ctx (values.takeWhile (!isSeparator ·)) = .ok y ∧
      (operands values).length = t.condition.operandCount := by
  revert h
  fun_cases read ctx nodes with
  | case1 | case2 | case3 | case4 => rintro ⟨⟩
  | case5 field hfield condition values c hc =>
    fun_cases readValues ctx field condition c values with
    | case1 | case2 =>
      rintro ⟨⟩
      cases hcount
    | case3 | case4 | case5 => rintro ⟨⟩
    | case6 _ value rest =>
      intro h
      rcases condition_readMembership h with hmember | hmember <;>
        · rw [hmember] at hcount
          cases hcount
    | case7 _ hne =>
      intro h
      obtain ⟨x, hx, h⟩ := bind_eq_ok.mp h
      cases h
      obtain ⟨⟨y, hy⟩, hlength⟩ := operands_of_readBounds hx
      exact ⟨field, condition, values, y, rfl, rfl, hy, hlength⟩
    | case8 =>
      intro h
      obtain ⟨x, hx, h⟩ := bind_eq_ok.mp h
      cases h
      obtain ⟨⟨y, hy⟩, hlength⟩ := operands_of_readComparison hx
      refine ⟨field, condition, _, y, rfl, rfl, hy, ?_⟩
      cases c with
      | relation r => exact hlength
      | between => contradiction
      | isNull | isNotNull | inList | inDictionary => cases hcount

end

end TermReader

namespace FilterReader
open TermReader

section
variable {ctx : Context} {nodes : List Node}

private theorem run_endTerm_of_ok {t : Term} (h : TermReader.read ctx nodes = .ok t)
    (parts : List Part) (names : List String) :
    (Progress.endTerm ctx true ⟨parts, nodes⟩).run.run names =
      (.ok ⟨parts ++ [.item (.term t)], []⟩, names ++ referredNames nodes) := by
  have hne : nodes ≠ [] := by
    rintro rfl
    cases h
  rw [Progress.endTerm, if_neg (by simpa using hne), h]
  rfl

/-- A term that is refused notes nothing. A term that compares with values notes its field, and the
first value if it is just a name. These are all its names exactly if no other value is just a name;
so they are for a comparison, and not for a `between` with a name as its upper bound. -/
theorem run_endTerm (hdate : ctx.services.readDate = DateExpression.read) (parts : List Part)
    (nodes : List Node) (names : List String) :
    (∀ e, TermReader.read ctx nodes = .error e →
      ((Progress.endTerm ctx true ⟨parts, nodes⟩).run.run names).2 = names ∧
      (nodes ≠ [] →
        ((Progress.endTerm ctx true ⟨parts, nodes⟩).run.run names).1 = .error e)) ∧
    ∀ t, TermReader.read ctx nodes = .ok t → 0 < t.condition.operandCount →
      ∃ field condition values first others, nodes = field :: condition :: values ∧
        t.field = field.unescaped ∧ operands values = first :: others ∧
        (operands values).length = t.condition.operandCount ∧
        (Progress.endTerm ctx true ⟨parts, nodes⟩).run.run names =
          (.ok ⟨parts ++ [.item (.term t)], []⟩, names ++ field.unescaped :: loneName first) ∧
        (loneName first = (operands values).flatMap loneName ↔
          ∀ value ∈ others, loneName value = []) := by
  constructor
  · intro e h
    cases nodes with
    | nil => exact ⟨rfl, fun hne => absurd rfl hne⟩
    | cons n nodes =>
      rw [endTerm_of_error h (List.cons_ne_nil n nodes)]
      exact ⟨rfl, fun _ => rfl⟩
  · intro t h hcount
    obtain ⟨field, condition, values, x, rfl, hfield, hx, hlength⟩ := operands_of_read h hcount
    obtain ⟨others, hothers⟩ := exists_operands values
    refine ⟨field, condition, values, _, others, rfl, hfield, hothers, hlength, ?_, ?_⟩
    · rw [run_endTerm_of_ok h, referredNames_eq hdate hx]
    · rw [hothers, List.flatMap_cons, List.self_eq_append_right, List.flatMap_eq_nil_iff]

end

namespace Sample

def bounded : String := "f between 1 and g"

def boundedNodes : List Node :=
  [.token ⟨.word, bounded, ⟨0, 1⟩⟩, .token ⟨.between, bounded, ⟨2, 9⟩⟩,
    .token ⟨.number, bounded, ⟨10, 11⟩⟩, .token ⟨.betweenAnd, bounded, ⟨12, 15⟩⟩,
    .token ⟨.word, bounded, ⟨16, 17⟩⟩]

def boundedTerm : Term := ⟨"f", .between, some "1, g", none⟩

end Sample

open Sample in
theorem run_endTerm_sample :
    TermReader.read .bare boundedNodes = .ok boundedTerm ∧
      ∃ field condition values first others, boundedNodes = field :: condition :: values ∧
        boundedTerm.field = field.unescaped ∧ operands values = first :: others ∧
        (operands values).length = 2 ∧
        (Progress.endTerm .bare true ⟨[], boundedNodes⟩).run.run ["a"] =
          (.ok ⟨[.item (.term boundedTerm)], []⟩,
            ["a"] ++ field.unescaped :: loneName first) ∧
        (loneName first = (operands values).flatMap loneName ↔
          ∀ value ∈ others, loneName value = []) := by
  have hread : TermReader.read .bare boundedNodes = .ok boundedTerm :=
    eq_ok_of_toOption (by decide +kernel)
  exact ⟨hread, (run_endTerm rfl [] boundedNodes ["a"]).2 boundedTerm hread (by decide)⟩

open Sample in
/-- The name that is an upper bound is a value of the term and is not noted. -/
theorem upper_bound_not_noted :
    (Group.ofTokens (Lexer.tokens bounded)).toOption.map (·.children) = some boundedNodes ∧
      ((Progress.endTerm .bare true ⟨[], boundedNodes⟩).run.run []).2 = ["f"] ∧
      (operands (boundedNodes.drop 2)).flatMap loneName = ["g"] := by
  decide +kernel

end FilterReader

end PipeQuery
