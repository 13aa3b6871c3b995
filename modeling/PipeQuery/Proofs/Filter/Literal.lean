import PipeQuery.Proofs.Filter.Bounds

/-!
What a field can be compared with. A value is a name, a parameter, a date expression or a number.
Two things are taken for values that are none of these: any single node that is no call, such as a
bracket, a comma or a keyword, and a number that has a sign of its own after another sign.
-/
namespace PipeQuery

def TokenKind.isSingleValue : TokenKind → Bool
  | .word | .singleQuoted | .doubleQuoted | .param | .number | .duration | .dateTime => true
  | _ => false

namespace TermReader

def joined (nodes : List Node) : String := nodes.foldl (fun text n => text ++ n.unescaped) ""

def leadingSigns (text : String) : Nat :=
  (text.toList.takeWhile fun c => c == '+' || c == '-').length

inductive IsNumber : List Node → Prop where
  | plain {n : Node} (kind : n.kind = .number) : IsNumber [n]
  | signed {s n : Node} (sign : s.kind = .arith .add ∨ s.kind = .arith .subtract)
      (kind : n.kind = .number) : IsNumber [s, n]

inductive IsLiteral (ctx : Context) : List Node → String → Prop where
  | name {n : Node} (kind : n.isString ∨ n.kind = .param) : IsLiteral ctx [n] n.unescaped
  | param {n name : Node} {g : Group} (call : n.function? = some g) (param : isParamCall g)
      (children : g.children = [name]) (kind : name.kind = .word) :
      IsLiteral ctx [n] ((ctx.request.param? name.unescaped).getD "")
  | date {nodes : List Node} {t : Instant} (dated : nodes.any isDated)
      (points : ∀ n ∈ nodes, undatedCall? n = none)
      (reads : ctx.services.readDate ctx.reference nodes = .ok t) :
      IsLiteral ctx nodes (joined nodes)
  | number {nodes : List Node} (number : IsNumber nodes) (signs : leadingSigns (joined nodes) ≤ 1) :
      IsLiteral ctx nodes (joined nodes)

/-- The nodes are no value, but they are taken for one with this text. -/
inductive IsStray : List Node → String → Prop where
  | node {n : Node} (call : n.function? = none) (kind : n.kind.isSingleValue = false) :
      IsStray [n] n.unescaped
  | signs {nodes : List Node} (number : IsNumber nodes) (signs : 1 < leadingSigns (joined nodes)) :
      IsStray nodes (joined nodes)

section
variable {ctx : Context} {nodes : List Node}

private theorem joined_singleton (n : Node) : joined [n] = n.unescaped := String.empty_append

private theorem kind_of_function? {n : Node} {g : Group} (h : n.function? = some g) :
    n.kind = .functionGroup := by
  unfold Node.function? at h
  split at h
  · rfl
  · cases h

private theorem function?_eq_none_of_kind {n : Node} (h : n.kind ≠ .functionGroup) :
    n.function? = none := by
  cases hn : n.function? with
  | none => rfl
  | some g => exact absurd (kind_of_function? hn) h

private theorem isDated_eq_false_of_kind {n : Node} (hcall : n.function? = none)
    (hduration : n.kind ≠ .duration) (hdateTime : n.kind ≠ .dateTime) : isDated n = false := by
  simp [isDated, hcall, hduration, hdateTime]

/-- A node that is neither a call nor a duration nor a date-time is no part of a date expression. -/
theorem undated_of_kind {n : Node} (h : n.kind ≠ .functionGroup ∧ n.kind ≠ .duration ∧
    n.kind ≠ .dateTime) : isDated n = false ∧ undatedCall? n = none := by
  have hcall := function?_eq_none_of_kind h.1
  refine ⟨isDated_eq_false_of_kind hcall h.2.1 h.2.2, ?_⟩
  rw [undatedCall?, hcall]
  rfl

private theorem IsNumber.undated (h : IsNumber nodes) :
    ∀ n ∈ nodes, isDated n = false ∧ undatedCall? n = none := by
  intro n hn
  apply undated_of_kind
  cases h with
  | plain kind =>
    cases List.mem_singleton.mp hn
    simp [kind]
  | signed sign kind =>
    simp only [List.mem_cons, List.not_mem_nil, or_false] at hn
    rcases hn with rfl | rfl
    · rcases sign with sign | sign <;> simp [sign]
    · simp [kind]

private theorem IsNumber.any_number (h : IsNumber nodes) : nodes.any (·.kind == .number) := by
  cases h with
  | plain kind => simp [kind]
  | signed sign kind => simp [kind]

/-- Nothing may follow a number. -/
theorem checkNumber_seen_iff {signed : Bool} :
    checkNumber signed true nodes = .ok () ↔ nodes = [] := by
  cases nodes with
  | nil => simp [checkNumber]
  | cons n ns =>
    simp only [checkNumber, if_true, Bool.or_true, reduceCtorEq, iff_false]
    intro h
    split at h <;> cases h

/-- Only a number may follow a sign. -/
theorem checkNumber_signed_iff (hnumber : nodes.any (·.kind == .number)) :
    checkNumber true false nodes = .ok () ↔ ∃ n : Node, nodes = [n] ∧ n.kind = .number := by
  cases nodes with
  | nil => simp at hnumber
  | cons n ns =>
    by_cases hn : n.kind = .number
    · rw [checkNumber, hn]
      refine checkNumber_seen_iff.trans ⟨?_, ?_⟩
      · rintro rfl
        exact ⟨n, rfl, hn⟩
      · rintro ⟨m, hm, -⟩
        exact (List.cons.inj hm).2
    · simp only [checkNumber, Bool.true_or, if_true, List.cons.injEq]
      constructor
      · intro h
        split at h
        · contradiction
        · cases h
        · cases h
        · cases h
      · rintro ⟨m, ⟨rfl, -⟩, hm⟩
        exact absurd hm hn

/-- After a number there is nothing, and before it at most one sign. -/
theorem checkNumber_eq_ok_iff (hnumber : nodes.any (·.kind == .number)) :
    checkNumber false false nodes = .ok () ↔ IsNumber nodes := by
  constructor
  · intro h
    cases nodes with
    | nil => simp at hnumber
    | cons n ns =>
      have hafter (hkind : n.kind ≠ .number)
          (h : checkNumber true false ns = .ok ()) : ∃ m : Node, ns = [m] ∧ m.kind = .number :=
        (checkNumber_signed_iff (by simpa [hkind] using hnumber)).mp h
      rw [checkNumber] at h
      split at h
      next hkind =>
        obtain rfl := checkNumber_seen_iff.mp h
        exact .plain hkind
      next hkind =>
        obtain ⟨m, rfl, hm⟩ := hafter (by simp [hkind]) h
        exact .signed (.inl hkind) hm
      next hkind =>
        obtain ⟨m, rfl, hm⟩ := hafter (by simp [hkind]) h
        exact .signed (.inr hkind) hm
      next => cases h
  · intro h
    cases h with
    | plain kind => simp [checkNumber, kind]
    | signed sign kind => rcases sign with sign | sign <;> simp [checkNumber, sign, kind]

private theorem readParam_eq_ok_iff {g : Group} {x : String} :
    readParam ctx g = .ok x ↔ ∃ name : Node, g.children = [name] ∧ name.kind = .word ∧
      x = (ctx.request.param? name.unescaped).getD "" := by
  rw [readParam]
  constructor
  · intro h
    split at h
    · cases h
    next name hname =>
      split at h
      next hkind =>
        cases h
        exact ⟨name, hname, hkind, rfl⟩
      · cases h
    · cases h
  · rintro ⟨name, hname, hkind, rfl⟩
    rw [hname]
    exact if_pos hkind

/-- Nodes without calls but those of dates have to be a date expression, a number or one node. -/
theorem checkLiteral_eq_ok_iff : checkLiteral ctx nodes = .ok () ↔
    if nodes.any isDated then ∃ t, ctx.services.readDate ctx.reference nodes = .ok t
    else if nodes.any (·.kind == .number) then IsNumber nodes
    else nodes.length ≤ 1 := by
  unfold checkLiteral
  split
  next =>
    cases ctx.services.readDate ctx.reference nodes with
    | ok t => simp
    | error e => simp
  next =>
    split
    next hnumber => exact checkNumber_eq_ok_iff hnumber
    next =>
      split
      next n extra rest _ =>
        refine iff_of_false nofun ?_
        simp
      next hshort =>
        refine iff_of_true rfl ?_
        cases nodes with
        | nil => simp
        | cons n rest =>
          cases rest with
          | nil => simp
          | cons extra rest => exact (hshort n extra rest rfl).elim

private theorem undatedCall?_eq_some_iff {n : Node} {g : Group} : undatedCall? n = some g ↔
    n.function? = some g ∧ (isParamCall g ∨ DatePoint.ofFunction? g.text = none) := by
  simp [undatedCall?, Option.filter_eq_some_iff]

/-- A call that names no point in time is the whole value, and it is a parameter. -/
theorem readValue_of_undatedCall {n : Node} {g : Group} (hn : n ∈ nodes)
    (hcall : undatedCall? n = some g) {x : String} :
    readValue ctx nodes = .ok x ↔ nodes = [n] ∧ isParamCall g ∧ readParam ctx g = .ok x := by
  constructor
  · intro h
    unfold readValue at h
    split at h
    next m g' hfound =>
      obtain ⟨m', hm, hmap⟩ := List.exists_of_findSome?_eq_some hfound
      obtain ⟨g'', hg, heq⟩ := Option.map_eq_some_iff.mp hmap
      cases heq
      split at h
      next hparam =>
        split at h
        next => cases h
        next hshort =>
          -- There is one node only, so it is the one that is known to be a call.
          cases nodes with
          | nil => cases hn
          | cons a rest =>
            cases rest with
            | nil =>
              obtain rfl := List.mem_singleton.mp hn
              obtain rfl := List.mem_singleton.mp hm
              cases hcall.symm.trans hg
              exact ⟨rfl, hparam, h⟩
            | cons extra rest => exact (hshort a extra rest rfl).elim
      next => cases h
    next hnone =>
      have hnot := List.findSome?_eq_none_iff.mp hnone n hn
      rw [hcall] at hnot
      cases hnot
  · rintro ⟨rfl, hparam, hx⟩
    simpa [readValue, hcall, hparam] using hx

/-- Nodes without such calls have their own text as value, if they can be one. -/
theorem readValue_of_dated (h : ∀ n ∈ nodes, undatedCall? n = none) {x : String} :
    readValue ctx nodes = .ok x ↔ checkLiteral ctx nodes = .ok () ∧ x = joined nodes := by
  have hnone : nodes.findSome? (fun n => (undatedCall? n).map fun g => (n, g)) = none := by
    rw [List.findSome?_eq_none_iff]
    intro n hn
    rw [h n hn]
    rfl
  unfold readValue
  rw [hnone]
  cases hcheck : checkLiteral ctx nodes with
  | error e => simp [bind, Except.bind]
  | ok u => simp [bind, Except.bind, pure, Except.pure, joined, eq_comm]

private theorem isSingleValue_eq_false_of_kind {k : TokenKind} (hstring : k.isString = false)
    (hparam : k ≠ .param) (hnumber : k ≠ .number) (hduration : k ≠ .duration)
    (hdateTime : k ≠ .dateTime) : k.isSingleValue = false := by
  cases k <;> simp_all [TokenKind.isSingleValue, TokenKind.isString]

/-- A single node that is no part of a date expression and no number. -/
theorem isLiteral_or_isStray_of_single (ctx : Context) {n : Node} (hdated : isDated n = false)
    (hnumber : n.kind ≠ .number) :
    IsLiteral ctx [n] n.unescaped ∨ IsStray [n] n.unescaped := by
  by_cases hname : n.isString ∨ n.kind = .param
  · exact .inl (.name hname)
  · obtain ⟨hstring, hparam⟩ := not_or.mp hname
    simp only [isDated, Bool.or_eq_false_iff, beq_eq_false_iff_ne, Option.isSome_eq_false_iff,
      Option.isNone_iff_eq_none] at hdated
    obtain ⟨⟨hcall, hduration⟩, hdateTime⟩ := hdated
    refine .inr (.node hcall ?_)
    exact isSingleValue_eq_false_of_kind (by simpa [Node.isString] using hstring) hparam hnumber
      hduration hdateTime

/-- What is read as a value is one, or it is taken for one. -/
theorem isLiteral_or_isStray_of_readValue (hne : nodes ≠ []) {x : String}
    (h : readValue ctx nodes = .ok x) : IsLiteral ctx nodes x ∨ IsStray nodes x := by
  by_cases hundated : ∀ n ∈ nodes, undatedCall? n = none
  · obtain ⟨hcheck, rfl⟩ := (readValue_of_dated hundated).mp h
    rw [checkLiteral_eq_ok_iff] at hcheck
    split at hcheck
    next hdated =>
      obtain ⟨t, ht⟩ := hcheck
      exact .inl (.date hdated hundated ht)
    next hdated =>
      split at hcheck
      next =>
        rcases Nat.lt_or_ge 1 (leadingSigns (joined nodes)) with hsigns | hsigns
        · exact .inr (.signs hcheck hsigns)
        · exact .inl (.number hcheck hsigns)
      next hnumber =>
        have hpos := List.length_pos_iff.mpr hne
        obtain ⟨n, rfl⟩ := List.length_eq_one_iff.mp (Nat.le_antisymm hcheck hpos)
        rw [joined_singleton]
        exact isLiteral_or_isStray_of_single ctx (by simpa using hdated) (by simpa using hnumber)
  · obtain ⟨n, hn, hcall⟩ : ∃ n ∈ nodes, undatedCall? n ≠ none := by simpa using hundated
    obtain ⟨g, hg⟩ := Option.ne_none_iff_exists'.mp hcall
    obtain ⟨rfl, hparam, hread⟩ := (readValue_of_undatedCall hn hg).mp h
    obtain ⟨name, hname, hkind, rfl⟩ := readParam_eq_ok_iff.mp hread
    exact .inl (.param (undatedCall?_eq_some_iff.mp hg).1 hparam hname hkind)

private theorem IsLiteral.ne_nil {x : String} (h : IsLiteral ctx nodes x) : nodes ≠ [] := by
  cases h with
  | name | param => simp
  | date dated =>
    rintro rfl
    simp at dated
  | number number => cases number <;> simp

private theorem IsStray.ne_nil {x : String} (h : IsStray nodes x) : nodes ≠ [] := by
  cases h with
  | node => simp
  | signs number => cases number <;> simp

private theorem IsNumber.readValue_eq (h : IsNumber nodes) :
    readValue ctx nodes = .ok (joined nodes) := by
  refine (readValue_of_dated fun n hn => (h.undated n hn).2).mpr ⟨?_, rfl⟩
  have hdated : nodes.any isDated = false :=
    List.any_eq_false.mpr fun n hn => by simp [(h.undated n hn).1]
  rw [checkLiteral_eq_ok_iff, hdated, h.any_number]
  exact h

/-- A single node that is no call, no duration, no date-time and no number is its own value. -/
theorem readValue_of_single {n : Node} (hcall : n.function? = none) (hnumber : n.kind ≠ .number)
    (hduration : n.kind ≠ .duration) (hdateTime : n.kind ≠ .dateTime) :
    readValue ctx [n] = .ok n.unescaped := by
  have hundated : ∀ m ∈ [n], undatedCall? m = none := by
    simp [undatedCall?, hcall]
  refine (readValue_of_dated hundated).mpr ⟨?_, (joined_singleton n).symm⟩
  have hdated := isDated_eq_false_of_kind hcall hduration hdateTime
  simp [checkLiteral_eq_ok_iff, hdated, hnumber]

private theorem IsLiteral.readValue_eq {x : String} (h : IsLiteral ctx nodes x) :
    readValue ctx nodes = .ok x := by
  cases h with
  | @name n kind =>
    have hkind : n.kind ≠ .functionGroup ∧ n.kind ≠ .number ∧ n.kind ≠ .duration ∧
        n.kind ≠ .dateTime := by
      rw [Node.isString] at kind
      cases hn : n.kind <;> simp_all [TokenKind.isString]
    exact readValue_of_single (function?_eq_none_of_kind hkind.1) hkind.2.1 hkind.2.2.1 hkind.2.2.2
  | @param n name g call param children kind =>
    have hundated := undatedCall?_eq_some_iff.mpr ⟨call, .inl param⟩
    exact (readValue_of_undatedCall (by simp) hundated).mpr
      ⟨rfl, param, readParam_eq_ok_iff.mpr ⟨name, children, kind, rfl⟩⟩
  | date dated points reads =>
    refine (readValue_of_dated points).mpr ⟨?_, rfl⟩
    rw [checkLiteral_eq_ok_iff, if_pos dated]
    exact ⟨_, reads⟩
  | number number signs => exact number.readValue_eq

private theorem IsStray.readValue_eq {x : String} (h : IsStray nodes x) :
    readValue ctx nodes = .ok x := by
  cases h with
  | @node n call kind =>
    refine readValue_of_single call ?_ ?_ ?_
    all_goals
      intro hn
      simp [hn, TokenKind.isSingleValue] at kind
  | signs number signs => exact number.readValue_eq

private theorem not_isStray_of_isNumber (h : IsNumber nodes)
    (hsigns : leadingSigns (joined nodes) ≤ 1) {y : String} : ¬ IsStray nodes y := by
  intro hstray
  cases hstray with
  | node call kind =>
    cases h with
    | plain number => simp [number, TokenKind.isSingleValue] at kind
  | signs number signs => omega

/-- What is taken for a value is none. -/
theorem IsLiteral.not_isStray {x y : String} (h : IsLiteral ctx nodes x) : ¬ IsStray nodes y := by
  cases h with
  | @name n kind =>
    have hliteral : n.kind.isSingleValue = true ∧ n.kind ≠ .number := by
      rw [Node.isString] at kind
      cases hn : n.kind <;> simp_all [TokenKind.isString, TokenKind.isSingleValue]
    intro hstray
    cases hstray with
    | node call kind => simp [hliteral.1] at kind
    | signs number signs =>
      cases number with
      | plain number => exact hliteral.2 number
  | param call param children kind =>
    intro hstray
    cases hstray with
    | node none kind => simp [none] at call
    | signs number signs =>
      have hundated := undatedCall?_eq_some_iff.mpr ⟨call, .inl param⟩
      simp [(number.undated _ (List.mem_singleton_self _)).2] at hundated
  | date dated points reads =>
    intro hstray
    obtain ⟨m, hm, hdated⟩ := List.any_eq_true.mp dated
    cases hstray with
    | @node n call kind =>
      obtain rfl := List.mem_singleton.mp hm
      rw [isDated_eq_false_of_kind call] at hdated
      · cases hdated
      all_goals
        intro hn
        simp [hn, TokenKind.isSingleValue] at kind
    | signs number signs => simp [(number.undated m hm).1] at hdated
  | number number signs => exact not_isStray_of_isNumber number signs

/-- A comparison is read from nodes without a separator that have a value. -/
theorem readComparison_eq_ok_iff {x : String} : readComparison ctx nodes = .ok x ↔
    (∀ n ∈ nodes, n.kind ≠ .betweenAnd) ∧ readValue ctx nodes = .ok x := by
  constructor
  · intro h
    obtain ⟨y, hy, hrest⟩ := bind_eq_ok.mp h
    cases hdrop : nodes.dropWhile (!isSeparator ·) with
    | cons extra rest =>
      rw [hdrop] at hrest
      cases hrest
    | nil =>
      rw [hdrop] at hrest
      cases hrest
      have htake := takeWhile_eq_self_of_dropWhile hdrop
      rw [htake] at hy
      refine ⟨?_, hy⟩
      intro n hn
      rw [← htake] at hn
      exact isSeparator_eq_false_iff.mp (isSeparator_of_mem_takeWhile n hn)
  · rintro ⟨hnone, hx⟩
    rw [readComparison_eq fun n hn => isSeparator_eq_false_iff.mpr (hnone n hn)]
    exact hx

/-- Only values after a relation make a term with this relation. -/
theorem readValues_relation_iff {field conditionNode : Node} {condition : Condition} {t : Term}
    {r : Relation} :
    readValues ctx field conditionNode condition nodes = .ok t ∧ t.condition = .relation r ↔
      condition = .relation r ∧ nodes ≠ [] ∧ ∃ x, readComparison ctx nodes = .ok x ∧
        t = ⟨field.unescaped, .relation r, some (Text.trim x), none⟩ := by
  constructor
  · rintro ⟨h, hcondition⟩
    revert h
    fun_cases readValues ctx field conditionNode condition nodes with
    | case1 | case2 =>
      rintro ⟨⟩
      cases hcondition
    | case3 | case4 | case5 => rintro ⟨⟩
    | case6 _ value rest =>
      intro h
      rcases condition_readMembership h with hmember | hmember <;>
        cases hmember.symm.trans hcondition
    | case7 =>
      intro h
      obtain ⟨value, -, h⟩ := bind_eq_ok.mp h
      cases h
      cases hcondition
    | case8 _ _ _ hne =>
      intro h
      obtain ⟨x, hx, h⟩ := bind_eq_ok.mp h
      cases h
      cases hcondition
      exact ⟨rfl, hne, x, hx, rfl⟩
  · rintro ⟨rfl, hne, x, hx, rfl⟩
    obtain ⟨n, rest, rfl⟩ := List.exists_cons_of_ne_nil hne
    have hread : readValues ctx field conditionNode (.relation r) (n :: rest) =
        (readComparison ctx (n :: rest)).map
          fun x => ⟨field.unescaped, .relation r, some (Text.trim x), none⟩ := rfl
    rw [hread, hx]
    exact ⟨rfl, rfl⟩

/-- A term with a relation is read exactly from a field, the relation and nodes after it that are a
value or are taken for one: a name, a parameter, a date expression or a number with at most one sign
are values, and any other single node and a number with more signs are taken for values. No nodes
are both. The trimmed text of the nodes is the value of the term. -/
theorem read_relation_iff {t : Term} {r : Relation} :
    (read ctx nodes = .ok t ∧ t.condition = .relation r ↔
      ∃ field condition values x, nodes = field :: condition :: values ∧
        (field.isString ∨ field.kind = .param) ∧ condition.kind = .relation r ∧
        (∀ n ∈ values, n.kind ≠ .betweenAnd) ∧ (IsLiteral ctx values x ∨ IsStray values x) ∧
        t = ⟨field.unescaped, .relation r, some (Text.trim x), none⟩) ∧
      ∀ values x y, IsLiteral ctx values x → ¬ IsStray values y := by
  refine ⟨⟨?_, ?_⟩, fun values x y h => h.not_isStray⟩
  · rintro ⟨h, hcondition⟩
    revert h
    fun_cases read ctx nodes with
    | case1 | case2 | case3 | case4 => rintro ⟨⟩
    | case5 field hfield condition values c hc =>
      intro h
      obtain ⟨rfl, hne, x, hx, rfl⟩ := readValues_relation_iff.mp ⟨h, hcondition⟩
      obtain ⟨hseparator, hvalue⟩ := readComparison_eq_ok_iff.mp hx
      refine ⟨field, condition, values, x, rfl, ?_, ?_, hseparator,
        isLiteral_or_isStray_of_readValue hne hvalue, rfl⟩
      · simpa [Decidable.or_iff_not_imp_left] using hfield
      · revert hc
        fun_cases Condition.ofKind? condition.kind <;> simp_all
  · rintro ⟨field, condition, values, x, rfl, hfield, hcondition, hseparator, hx, rfl⟩
    have hkind : Condition.ofKind? condition.kind = some (.relation r) := by
      rw [hcondition]
      rfl
    have hread : read ctx (field :: condition :: values) =
        readValues ctx field condition (.relation r) values := by
      rw [read, if_neg (by simpa [Decidable.or_iff_not_imp_left] using hfield)]
      simp only [hkind]
    have hvalue : readValue ctx values = .ok x :=
      hx.elim (fun h => h.readValue_eq) fun h => h.readValue_eq
    have hne : values ≠ [] := hx.elim (fun h => h.ne_nil) fun h => h.ne_nil
    rw [hread]
    exact readValues_relation_iff.mpr
      ⟨rfl, hne, x, readComparison_eq_ok_iff.mpr ⟨hseparator, hvalue⟩, rfl⟩

end

namespace Sample

def bracketed : String := "a = (b)"

def doublySigned : String := "a = - -5"

def bracketedNodes : List Node :=
  [.token ⟨.word, bracketed, ⟨0, 1⟩⟩, .token ⟨.relation .equal, bracketed, ⟨2, 3⟩⟩,
    .group (.bracket ⟨.openBracket, bracketed, ⟨4, 5⟩⟩ ⟨.closeBracket, bracketed, ⟨6, 7⟩⟩) bracketed
      ⟨4, 7⟩ [.token ⟨.word, bracketed, ⟨5, 6⟩⟩]]

def doublySignedNodes : List Node :=
  [.token ⟨.word, doublySigned, ⟨0, 1⟩⟩, .token ⟨.relation .equal, doublySigned, ⟨2, 3⟩⟩,
    .token ⟨.arith .subtract, doublySigned, ⟨4, 5⟩⟩, .token ⟨.number, doublySigned, ⟨6, 8⟩⟩]

end Sample

open Sample in
/-- A bracket and a number with two signs are taken for values. -/
theorem bracket_as_value :
    (Group.ofTokens (Lexer.tokens bracketed)).toOption.map (·.children) = some bracketedNodes ∧
      read .bare bracketedNodes = .ok ⟨"a", .relation .equal, some "(b)", none⟩ ∧
      (∀ x, ¬ IsLiteral .bare (bracketedNodes.drop 2) x) ∧
      (Group.ofTokens (Lexer.tokens doublySigned)).toOption.map (·.children) =
        some doublySignedNodes ∧
      read .bare doublySignedNodes = .ok ⟨"a", .relation .equal, some "--5", none⟩ ∧
      ∀ x, ¬ IsLiteral .bare (doublySignedNodes.drop 2) x := by
  refine ⟨by decide +kernel, eq_ok_of_toOption (by decide +kernel), ?_, by decide +kernel,
    eq_ok_of_toOption (by decide +kernel), ?_⟩
  · exact fun x h => h.not_isStray (.node rfl rfl)
  · have hsigns : 1 < leadingSigns (joined (doublySignedNodes.drop 2)) := by decide +kernel
    exact fun x h => h.not_isStray (.signs (.signed (.inr rfl) rfl) hsigns)

end TermReader

end PipeQuery
