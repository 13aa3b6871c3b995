import PipeQuery.Proofs.Filter.Between

/-!
What a term with two bounds is read from. The nodes after the condition are those of the lower
bound, a separator and those of the upper bound, and the value of the term is made of the values of
both. An upper bound is asked for; a lower bound is not, and one that is missing has an empty value.
-/
namespace PipeQuery.TermReader

section
variable {ctx : Context} {nodes : List Node} {t : Term}

theorem isSeparator_eq_false_iff {n : Node} : isSeparator n = false ↔ n.kind ≠ .betweenAnd := by
  rw [isSeparator, beq_eq_false_iff_ne]

theorem isSeparator_of_mem_takeWhile : ∀ n ∈ nodes.takeWhile (!isSeparator ·),
    isSeparator n = false := by
  intro n hn
  simpa using List.all_eq_true.mp List.all_takeWhile n hn

/-- Nodes in which a separator is found are those before it, the separator and those after it. -/
theorem eq_append_of_dropWhile {separator : Node} {rest : List Node}
    (h : nodes.dropWhile (!isSeparator ·) = separator :: rest) :
    nodes = nodes.takeWhile (!isSeparator ·) ++ separator :: rest ∧
      separator.kind = .betweenAnd := by
  constructor
  · rw [← h, List.takeWhile_append_dropWhile]
  · have hhead := List.head?_dropWhile_not (!isSeparator ·) nodes
    rw [h] at hhead
    simpa [isSeparator] using hhead

theorem takeWhile_eq_self_of_dropWhile (h : nodes.dropWhile (!isSeparator ·) = []) :
    nodes.takeWhile (!isSeparator ·) = nodes := by
  have happend := List.takeWhile_append_dropWhile (p := (!isSeparator ·)) (l := nodes)
  rwa [h, List.append_nil] at happend

/-- The bounds are the nodes on both sides of the only separator. -/
theorem readBounds_eq_ok_iff {condition : Node} {value : String} :
    readBounds ctx condition nodes = .ok value ↔
      ∃ lower separator upper x y, nodes = lower ++ separator :: upper ∧
        separator.kind = .betweenAnd ∧ (∀ n ∈ lower ++ upper, n.kind ≠ .betweenAnd) ∧
        upper ≠ [] ∧ readValue ctx lower = .ok x ∧ readValue ctx upper = .ok y ∧
        value = x ++ ", " ++ y := by
  constructor
  · intro h
    rw [readBounds] at h
    obtain ⟨x, hx, h⟩ := bind_eq_ok.mp h
    cases hdrop : nodes.dropWhile (!isSeparator ·) with
    | nil =>
      rw [hdrop] at h
      cases h
    | cons separator rest =>
      rw [hdrop] at h
      obtain ⟨y, hy, h⟩ := bind_eq_ok.mp h
      obtain ⟨hnodes, hseparator⟩ := eq_append_of_dropWhile hdrop
      split at h
      · cases h
      next hupper =>
        cases hextra : rest.dropWhile (!isSeparator ·) with
        | cons extra others =>
          rw [hextra] at h
          cases h
        | nil =>
          rw [hextra] at h
          cases h
          -- Nothing is left after the upper bound, so it is the whole rest.
          have hrest := takeWhile_eq_self_of_dropWhile hextra
          refine ⟨_, separator, _, x, y, hrest.symm ▸ hnodes, hseparator, ?_,
            by simpa using hupper, hx, hy, rfl⟩
          intro n hn
          refine isSeparator_eq_false_iff.mp ?_
          rcases List.mem_append.mp hn with hn | hn
          · exact isSeparator_of_mem_takeWhile n hn
          · exact isSeparator_of_mem_takeWhile n hn
  · rintro ⟨lower, separator, upper, x, y, rfl, hseparator, hsingle, hne, hx, hy, rfl⟩
    obtain ⟨hlower, hupper⟩ := List.forall_mem_append.mp hsingle
    exact readBounds_eq_ok (fun n hn => isSeparator_eq_false_iff.mpr (hlower n hn))
      (fun n hn => isSeparator_eq_false_iff.mpr (hupper n hn)) hseparator hne hx hy condition

theorem condition_readMembership {field : String} {value : Node} {rest : List Node}
    (h : readMembership ctx field value rest = .ok t) :
    t.condition = .inList ∨ t.condition = .inDictionary := by
  rw [readMembership] at h
  split at h
  · unfold readDictionary at h
    split at h
    · cases h
    · cases h
    · split at h
      · split at h
        · cases h
          exact .inr rfl
        · cases h
      · cases h
  · split at h
    · cases h
    · split at h
      · cases h
      · obtain ⟨values, -, h⟩ := bind_eq_ok.mp h
        cases h
        exact .inl rfl

/-- Only values after the condition itself make a term with two bounds. -/
theorem readValues_eq_ok_iff {field conditionNode : Node} {condition : Condition} :
    readValues ctx field conditionNode condition nodes = .ok t ∧ t.condition = .between ↔
      condition = .between ∧ nodes ≠ [] ∧ ∃ value, readBounds ctx conditionNode nodes = .ok value ∧
        t = ⟨field.unescaped, .between, some (Text.trim value), none⟩ := by
  constructor
  · rintro ⟨h, hcondition⟩
    revert h
    fun_cases readValues ctx field conditionNode condition nodes with
    | case1 | case2 =>
      rintro ⟨⟩
      cases hcondition
    | case3 | case4 | case5 => rintro ⟨⟩
    | case6 _ value rest =>
      intro h
      rcases condition_readMembership h with hmember | hmember <;>
        cases hmember.symm.trans hcondition
    | case7 values _ hne =>
      intro h
      obtain ⟨value, hvalue, h⟩ := bind_eq_ok.mp h
      cases h
      exact ⟨rfl, hne, value, hvalue, rfl⟩
    | case8 =>
      intro h
      obtain ⟨value, -, h⟩ := bind_eq_ok.mp h
      cases h
      contradiction
  · rintro ⟨rfl, hne, value, hvalue, rfl⟩
    obtain ⟨n, rest, rfl⟩ := List.exists_cons_of_ne_nil hne
    have hread : readValues ctx field conditionNode .between (n :: rest) =
        (readBounds ctx conditionNode (n :: rest)).map
          fun x => ⟨field.unescaped, .between, some (Text.trim x), none⟩ := rfl
    rw [hread, hvalue]
    exact ⟨rfl, rfl⟩

/-- A term with two bounds is read exactly from a field, the condition, the nodes of a lower bound,
one separator and the nodes of an upper bound. Both bounds have values, and these with a comma
between them, trimmed, are the value of the term. The upper bound is never missing; the lower bound
may be. -/
theorem read_between_iff :
    read ctx nodes = .ok t ∧ t.condition = .between ↔
      ∃ field condition lower separator upper x y,
        nodes = field :: condition :: (lower ++ separator :: upper) ∧
        (field.isString ∨ field.kind = .param) ∧ condition.kind = .between ∧
        separator.kind = .betweenAnd ∧ (∀ n ∈ lower ++ upper, n.kind ≠ .betweenAnd) ∧
        upper ≠ [] ∧ readValue ctx lower = .ok x ∧ readValue ctx upper = .ok y ∧
        t = ⟨field.unescaped, .between, some (Text.trim (x ++ ", " ++ y)), none⟩ := by
  constructor
  · rintro ⟨h, hcondition⟩
    revert h
    fun_cases read ctx nodes with
    | case1 | case2 | case3 | case4 => rintro ⟨⟩
    | case5 field hfield condition values c hc =>
      intro h
      obtain ⟨rfl, -, value, hvalue, rfl⟩ := readValues_eq_ok_iff.mp ⟨h, hcondition⟩
      obtain ⟨lower, separator, upper, x, y, rfl, hseparator, hsingle, hne, hx, hy, rfl⟩ :=
        readBounds_eq_ok_iff.mp hvalue
      refine ⟨field, condition, lower, separator, upper, x, y, rfl, ?_, ?_, hseparator, hsingle,
        hne, hx, hy, rfl⟩
      · simpa [Decidable.or_iff_not_imp_left] using hfield
      · revert hc
        fun_cases Condition.ofKind? condition.kind <;> simp_all
  · rintro ⟨field, condition, lower, separator, upper, x, y, rfl, hfield, hcondition, hseparator,
      hsingle, hne, hx, hy, rfl⟩
    have hkind : Condition.ofKind? condition.kind = some .between := by
      rw [hcondition]
      rfl
    have hread : read ctx (field :: condition :: (lower ++ separator :: upper)) =
        readValues ctx field condition .between (lower ++ separator :: upper) := by
      rw [read, if_neg (by simpa [Decidable.or_iff_not_imp_left] using hfield)]
      simp only [hkind]
    rw [hread]
    exact readValues_eq_ok_iff.mpr ⟨rfl, by simp, _, readBounds_eq_ok_iff.mpr
      ⟨lower, separator, upper, x, y, rfl, hseparator, hsingle, hne, hx, hy, rfl⟩, rfl⟩

end

namespace Sample

/-- A condition in which the separator directly follows the word before the bounds. -/
def unbounded : String := "f between and 5"

def unboundedNodes : List Node :=
  [.token ⟨.word, unbounded, ⟨0, 1⟩⟩, .token ⟨.between, unbounded, ⟨2, 9⟩⟩,
    .token ⟨.betweenAnd, unbounded, ⟨10, 13⟩⟩, .token ⟨.number, unbounded, ⟨14, 15⟩⟩]

end Sample

open Sample in
/-- A term with two bounds is accepted without a lower one. -/
theorem between_without_lower :
    (Group.ofTokens (Lexer.tokens unbounded)).toOption.map (·.children) = some unboundedNodes ∧
      read .bare unboundedNodes = .ok ⟨"f", .between, some ", 5", none⟩ ∧
      ¬∃ field condition lower separator upper,
        unboundedNodes = field :: condition :: (lower ++ separator :: upper) ∧
        separator.kind = .betweenAnd ∧ lower ≠ [] := by
  refine ⟨by decide +kernel, eq_ok_of_toOption (by decide +kernel), ?_⟩
  rintro ⟨field, condition, lower, separator, upper, hnodes, hseparator, hne⟩
  -- A node before the separator would have to be the separator itself.
  obtain ⟨n, lower, rfl⟩ := List.exists_cons_of_ne_nil hne
  simp only [unboundedNodes, List.cons.injEq, List.cons_append] at hnodes
  obtain ⟨-, -, -, hnodes⟩ := hnodes
  obtain ⟨rfl, rfl, rfl⟩ : lower = [] ∧ separator = _ ∧ upper = [] := by
    simpa [List.append_eq_singleton_iff, and_assoc, eq_comm] using hnodes
  cases hseparator

end PipeQuery.TermReader
