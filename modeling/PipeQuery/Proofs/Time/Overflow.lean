import PipeQuery.Proofs.Result
import PipeQuery.Time.Expression

/-!
Which date expressions go past the limits of the arithmetic: those that come to a duration of more
seconds than it can hold, and those that ask for a week whose Monday the calendar does not have.
-/
namespace PipeQuery

instance Failure.decidableOverflow {ε α : Type} : (x : Except (Failure ε) α) →
    Decidable (x = .error .overflow)
  | .ok _ => isFalse (by simp)
  | .error (.rejected _) => isFalse (by simp)
  | .error .overflow => isTrue rfl

namespace DateExpression

def secondsIn : List (String × Nat) :=
  [("s", 1), ("m", 60), ("h", 3600), ("d", 86400), ("w", 604800)]

/-- An amount that can be read, in a unit in which it is more seconds than the arithmetic holds. -/
def Overlong (text : String) : Prop :=
  ∃ (digits : List Char) (unit : String) (n : Nat), text.toList = digits ++ unit.toList ∧
    digits ≠ [] ∧ (∀ c ∈ digits, c.isDigit) ∧ (unit, n) ∈ secondsIn ∧
    DateLiteral.natOfDigits digits ≤ maxAmount ∧ maxSeconds < DateLiteral.natOfDigits digits * n

private theorem seconds_eq_overflow_iff (n : Nat) :
    seconds n = .error .overflow ↔ maxSeconds < n := by
  rw [seconds]
  split
  · simp; omega
  · simp; omega

private theorem months_ne_overflow (n : Nat) : months n ≠ .error .overflow := by
  rw [months]
  split
  · nofun
  · nofun

private theorem shiftOf_eq_overflow_iff (text : String) (amount : Nat) (unit : String) :
    shiftOf text amount unit = .error .overflow ↔
      ∃ n, (unit, n) ∈ secondsIn ∧ maxSeconds < amount * n := by
  rw [shiftOf.eq_def]
  split
  case h_3 | h_4 | h_5 | h_6 | h_7 => simp [secondsIn, seconds_eq_overflow_iff]
  case h_8 | h_9 => simp [secondsIn, months_ne_overflow]
  case h_10 => simp_all [secondsIn]
  all_goals simp [secondsIn]

private theorem takeWhile_of_mem_secondsIn {unit : String} {n : Nat} (h : (unit, n) ∈ secondsIn) :
    unit.toList.takeWhile Char.isDigit = [] := by
  have hall : ∀ p ∈ secondsIn, p.1.toList.takeWhile Char.isDigit = [] := by decide
  exact hall _ h

/-- A duration whose amount can be read is the shift of its amount in its unit. -/
theorem readDuration_eq_shiftOf {text unit : String} {digits : List Char}
    (htext : text.toList = digits ++ unit.toList) (hne : digits ≠ [])
    (hdigits : ∀ c ∈ digits, c.isDigit) (hunit : unit.toList.takeWhile Char.isDigit = [])
    (hle : DateLiteral.natOfDigits digits ≤ maxAmount) :
    readDuration text = shiftOf text (DateLiteral.natOfDigits digits) unit := by
  have htake : text.toList.takeWhile Char.isDigit = digits := by
    rw [htext, List.takeWhile_append_of_pos hdigits, hunit, List.append_nil]
  have hdrop : String.ofList (text.toList.drop digits.length) = unit := by
    rw [htext, List.drop_left, String.ofList_toList]
  rw [readDuration, htake, hdrop]
  exact if_neg (by simp [hne, hle])

private theorem readDuration_eq_overflow_iff (text : String) :
    readDuration text = .error .overflow ↔ Overlong text := by
  constructor
  · intro h
    rw [readDuration] at h
    split at h
    next => cases h
    next hread =>
      obtain ⟨n, hunit, hlong⟩ := (shiftOf_eq_overflow_iff _ _ _).mp h
      obtain ⟨hne, hle⟩ : text.toList.takeWhile Char.isDigit ≠ [] ∧
          DateLiteral.natOfDigits (text.toList.takeWhile Char.isDigit) ≤ maxAmount := by
        simpa using hread
      refine ⟨_, _, n, ?_, hne, List.all_eq_true.mp List.all_takeWhile, hunit, hle, hlong⟩
      rw [String.toList_ofList]
      exact List.prefix_iff_eq_append.mp (List.takeWhile_prefix _) |>.symm
  · rintro ⟨digits, unit, n, htext, hne, hdigits, hunit, hle, hlong⟩
    rw [readDuration_eq_shiftOf htext hne hdigits (takeWhile_of_mem_secondsIn hunit) hle]
    exact (shiftOf_eq_overflow_iff _ _ _).mpr ⟨n, hunit, hlong⟩

instance (text : String) : Decidable (Overlong text) :=
  decidable_of_iff _ (readDuration_eq_overflow_iff text)

private theorem apply_ne_overflow (t : Instant) (back : Bool) (shift : Shift) :
    apply t back shift ≠ .error .overflow := by
  rw [apply.eq_def]
  extract_lets signed result
  -- Only whether there is a result matters.
  clear_value result
  intro h
  cases result with
  | none => cases h
  | some t => cases h

private theorem shiftBy_eq_overflow_iff (t : Instant) (back : Bool) (d : Node) :
    shiftBy t back d = .error .overflow ↔ d.kind = .duration ∧ Overlong d.text := by
  rw [shiftBy]
  by_cases hd : d.kind = .duration
  · rw [if_pos hd, ← readDuration_eq_overflow_iff]
    cases hread : readDuration d.text with
    | error e => simp [hd, bind, Except.bind]
    | ok shift => simp [bind, Except.bind, apply_ne_overflow]
  · rw [if_neg hd]
    simp [hd, throw, throwThe, MonadExceptOf.throw]

/-- The nodes that move an instant once: a duration, or a node with a sign before it. -/
inductive Move : List Node → Bool → Node → Prop where
  | bare {d : Node} (kind : d.kind = .duration) : Move [d] false d
  | add {n d : Node} (sign : n.kind = .arith .add) : Move [n, d] false d
  | subtract {n d : Node} (sign : n.kind = .arith .subtract) : Move [n, d] true d

theorem Move.shiftAll_append {move : List Node} {back : Bool} {d : Node} (h : Move move back d)
    (t : Instant) (rest : List Node) :
    shiftAll t (move ++ rest) = shiftBy t back d >>= (shiftAll · rest) := by
  cases h with
  | bare kind =>
    rw [List.singleton_append, shiftAll.eq_def]
    simp only [kind]
  | add sign => simp [shiftAll, sign]
  | subtract sign => simp [shiftAll, sign]

theorem shiftAll_append {t t' : Instant} {front : List Node} (h : shiftAll t front = .ok t')
    (rest : List Node) : shiftAll t (front ++ rest) = shiftAll t' rest := by
  have hstep {t : Instant} {move front : List Node} {back : Bool} {d : Node}
      (first : Move move back d)
      (ih : ∀ t₁, shiftAll t₁ front = .ok t' → shiftAll t₁ (front ++ rest) = shiftAll t' rest)
      (h : shiftBy t back d >>= (shiftAll · front) = .ok t') :
      shiftAll t (move ++ (front ++ rest)) = shiftAll t' rest := by
    obtain ⟨t₁, hshift, hfront⟩ := bind_eq_ok.mp h
    rw [first.shiftAll_append, hshift]
    exact ih t₁ hfront
  fun_induction shiftAll t front with
  | case1 t =>
    cases h
    rfl
  | case2 t n front kind ih => exact hstep (.bare kind) ih h
  | case4 t n sign d front ih => exact hstep (.add sign) ih h
  | case6 t n sign d front ih => exact hstep (.subtract sign) ih h
  | case3 | case5 | case7 => cases h

inductive MovesTooFar : List Node → Prop where
  | mk {move rest : List Node} {back : Bool} {d : Node} (first : Move move back d)
      (kind : d.kind = .duration) (long : Overlong d.text) : MovesTooFar (move ++ rest)

private theorem MovesTooFar.shiftAll_eq {nodes : List Node} (h : MovesTooFar nodes) (t : Instant) :
    shiftAll t nodes = .error .overflow := by
  obtain ⟨first, kind, long⟩ := h
  rw [first.shiftAll_append, (shiftBy_eq_overflow_iff t _ _).mpr ⟨kind, long⟩]
  rfl

/-- The nodes before the first duration that is too long make up moves that can be carried out. -/
theorem exists_of_shiftAll_eq_overflow {t : Instant} {nodes : List Node}
    (h : shiftAll t nodes = .error .overflow) :
    ∃ front rest t', nodes = front ++ rest ∧ shiftAll t front = .ok t' ∧ MovesTooFar rest := by
  have hstep {t : Instant} {move nodes : List Node} {back : Bool} {d : Node}
      (first : Move move back d)
      (ih : ∀ t₁, shiftAll t₁ nodes = .error .overflow → ∃ front rest t',
        nodes = front ++ rest ∧ shiftAll t₁ front = .ok t' ∧ MovesTooFar rest)
      (h : shiftBy t back d >>= (shiftAll · nodes) = .error .overflow) : ∃ front rest t',
        move ++ nodes = front ++ rest ∧ shiftAll t front = .ok t' ∧ MovesTooFar rest := by
    cases hshift : shiftBy t back d with
    | error e =>
      rw [hshift] at h
      cases h
      obtain ⟨kind, long⟩ := (shiftBy_eq_overflow_iff t back d).mp hshift
      exact ⟨[], move ++ nodes, t, rfl, rfl, .mk first kind long⟩
    | ok t₁ =>
      rw [hshift] at h
      obtain ⟨front, rest, t', rfl, hfront, hrest⟩ := ih t₁ h
      refine ⟨move ++ front, rest, t', (List.append_assoc _ _ _).symm, ?_, hrest⟩
      rw [first.shiftAll_append, hshift]
      exact hfront
  fun_induction shiftAll t nodes with
  | case2 t n nodes kind ih => exact hstep (.bare kind) ih h
  | case4 t n sign d nodes ih => exact hstep (.add sign) ih h
  | case6 t n sign d nodes ih => exact hstep (.subtract sign) ih h
  | case1 | case3 | case5 | case7 => cases h

private theorem ofFunction?_eq_some {text : String} {p : DatePoint}
    (h : DatePoint.ofFunction? text = some p) : text = p.function := by
  have hp := List.find?_some h
  exact (beq_iff_eq.mp hp).symm

private theorem resolve?_eq_none_iff (p : DatePoint) (t : Instant) :
    p.resolve? t = none ↔
      p = .week ∧ t.day - Calendar.weekday t.day < Calendar.firstDay := by
  cases p with
  | week => simp [DatePoint.resolve?]
  | _ => simp [DatePoint.resolve?]

private theorem callPoint_eq_overflow_iff (reference : Instant) (text : String) :
    callPoint reference text = .error .overflow ↔
      text = DatePoint.week.function ∧
        reference.day - Calendar.weekday reference.day < Calendar.firstDay := by
  rw [callPoint]
  constructor
  · intro h
    split at h
    next => cases h
    next p hp =>
      split at h
      next => cases h
      next hnone =>
        obtain ⟨rfl, hearly⟩ := (resolve?_eq_none_iff p reference).mp hnone
        exact ⟨ofFunction?_eq_some hp, hearly⟩
  · rintro ⟨rfl, hearly⟩
    have hpoint : DatePoint.ofFunction? DatePoint.week.function = some .week := by decide
    have hnone := (resolve?_eq_none_iff .week reference).mpr ⟨rfl, hearly⟩
    simp only [hpoint, hnone]

/-- The nodes go past the limits of the arithmetic: they start with a week that starts before the
calendar, or a duration that is too long follows nodes that can be read. -/
inductive Overflows (reference : Instant) : List Node → Prop where
  | week {name opening closing : Token} {source : String} {span : Span} {children rest : List Node}
      (call : Text.slice source span = DatePoint.week.function)
      (early : reference.day - Calendar.weekday reference.day < Calendar.firstDay) :
      Overflows reference (.group (.function name opening closing) source span children :: rest)
  | duration {front rest : List Node} (before : front = [] ∨ ∃ t, read reference front = .ok t)
      (tooFar : MovesTooFar rest) : Overflows reference (front ++ rest)

/-- The first node gives the instant that the moves start from, or is one of them. -/
theorem read_cons_cases (reference : Instant) (n : Node) :
    (∃ start, (∀ ns, read reference (n :: ns) = start >>= (shiftAll · ns)) ∧
        (start = .error .overflow → ∀ ns, Overflows reference (n :: ns))) ∨
      ∀ ns, read reference (n :: ns) = shiftAll reference (n :: ns) := by
  cases n with
  | token u =>
    by_cases hkind : u.kind = .dateTime
    · refine .inl ⟨(DateLiteral.read u.slice).mapError .rejected, ?_, ?_⟩
      · intro ns
        exact if_pos hkind
      · intro h
        cases hread : DateLiteral.read u.slice with
        | error e =>
          rw [hread] at h
          cases h
        | ok t =>
          rw [hread] at h
          cases h
    · exact .inr fun ns => if_neg hkind
  | group kind source span children =>
    cases kind with
    | function name opening closing =>
      refine .inl ⟨callPoint reference (Text.slice source span), fun ns => rfl, ?_⟩
      intro h ns
      obtain ⟨hcall, hearly⟩ := (callPoint_eq_overflow_iff reference _).mp h
      exact .week hcall hearly
    | _ => exact .inr fun ns => rfl

/-- Nodes that follow a date expression move what it stands for. -/
theorem read_append {reference t : Instant} {front : List Node} (h : read reference front = .ok t)
    (rest : List Node) : read reference (front ++ rest) = shiftAll t rest := by
  cases front with
  | nil => cases h
  | cons n front =>
    rw [List.cons_append]
    rcases read_cons_cases reference n with ⟨start, hread, -⟩ | hread
    · rw [hread] at h ⊢
      obtain ⟨t₁, hstart, hfront⟩ := bind_eq_ok.mp h
      rw [hstart]
      exact shiftAll_append hfront rest
    · rw [hread] at h ⊢
      exact shiftAll_append h rest

/-- Moves that nothing comes before count from the reference time. -/
theorem Move.read_append {move : List Node} {back : Bool} {d : Node} (h : Move move back d)
    (reference : Instant) (rest : List Node) :
    read reference (move ++ rest) = shiftAll reference (move ++ rest) := by
  have hfirst {n : Node} (hcall : n.kind ≠ .functionGroup) (hliteral : n.kind ≠ .dateTime)
      (ns : List Node) : read reference (n :: ns) = shiftAll reference (n :: ns) := by
    cases n with
    | token u => exact if_neg hliteral
    | group kind source span children =>
      cases kind with
      | function name opening closing => exact absurd rfl hcall
      | _ => rfl
  cases h with
  | bare kind => exact hfirst (by simp [kind]) (by simp [kind]) _
  | add sign => exact hfirst (by simp [sign]) (by simp [sign]) _
  | subtract sign => exact hfirst (by simp [sign]) (by simp [sign]) _

private theorem read_of_movesTooFar {nodes : List Node} (h : MovesTooFar nodes)
    (reference : Instant) : read reference nodes = .error .overflow := by
  rw [← h.shiftAll_eq reference]
  obtain ⟨first, kind, long⟩ := h
  exact first.read_append reference _

theorem read_eq_overflow_iff (reference : Instant) (nodes : List Node) :
    read reference nodes = .error .overflow ↔ Overflows reference nodes := by
  constructor
  · intro h
    cases nodes with
    | nil => cases h
    | cons n nodes =>
      rcases read_cons_cases reference n with ⟨start, hread, hstart⟩ | hread
      · rw [hread] at h
        cases start with
        | error e =>
          cases h
          exact hstart rfl nodes
        | ok t =>
          obtain ⟨front, rest, t', rfl, hfront, hrest⟩ := exists_of_shiftAll_eq_overflow h
          have hbefore : read reference (n :: front) = .ok t' := (hread front).trans hfront
          exact .duration (.inr ⟨t', hbefore⟩) hrest
      · rw [hread] at h
        obtain ⟨front, rest, t', heq, hfront, hrest⟩ := exists_of_shiftAll_eq_overflow h
        rw [heq]
        cases front with
        | nil => exact .duration (.inl rfl) hrest
        | cons m front =>
          obtain ⟨rfl, -⟩ := List.cons.inj heq
          exact .duration (.inr ⟨t', (hread front).trans hfront⟩) hrest
  · intro h
    cases h with
    | week call early =>
      have hpoint := (callPoint_eq_overflow_iff reference _).mpr ⟨call, early⟩
      rw [read, hpoint]
      rfl
    | duration before tooFar =>
      rcases before with rfl | ⟨t, ht⟩
      · exact read_of_movesTooFar tooFar reference
      · rw [read_append ht]
        exact tooFar.shiftAll_eq t

end DateExpression

end PipeQuery
