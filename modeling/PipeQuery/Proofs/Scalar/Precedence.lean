import PipeQuery.Scalar

/-!
Precedence trees. Operands with operators between them are the leaves of exactly one tree in which
no operator stands below one that binds tighter. Joining a chain by falling precedence gives it, and
so does climbing over the operators from the left with a least precedence for each right operand.
-/
namespace PipeQuery

namespace BinaryOp

/-- The second operator may be the root of the left operand of the first without brackets. -/
def AllowsLeft (p q : BinaryOp) : Prop :=
  p.precedence < q.precedence ∨ q.precedence = p.precedence ∧ p ≠ .arith .power

/-- The second operator may be the root of the right operand of the first without brackets. -/
def AllowsRight (p q : BinaryOp) : Prop :=
  p.precedence < q.precedence ∨ p = .arith .power ∧ q = .arith .power

instance (p q : BinaryOp) : Decidable (p.AllowsRight q) := inferInstanceAs (Decidable (_ ∨ _))

private theorem precedence_pos (p : BinaryOp) : 1 ≤ p.precedence := by
  rcases p with op | r
  · cases op <;> decide
  · exact Nat.le_refl 1

private theorem precedence_le (p : BinaryOp) : p.precedence ≤ 4 := by
  rcases p with op | r
  · cases op <;> decide
  · cases r <;> decide

private theorem precedence_eq_four_iff (p : BinaryOp) : p.precedence = 4 ↔ p = .arith .power := by
  rcases p with op | r
  · cases op <;> decide
  · simp [precedence]

theorem AllowsLeft.le {p q : BinaryOp} (h : p.AllowsLeft q) : p.precedence ≤ q.precedence := by
  rcases h with h | ⟨h, -⟩
  · exact Nat.le_of_lt h
  · exact Nat.le_of_eq h.symm

theorem AllowsRight.le {p q : BinaryOp} (h : p.AllowsRight q) : p.precedence ≤ q.precedence := by
  rcases h with h | ⟨rfl, rfl⟩
  · exact Nat.le_of_lt h
  · exact Nat.le_refl _

private theorem not_allowsRight_of_allowsLeft {p q : BinaryOp} (h : p.AllowsLeft q) :
    ¬ q.AllowsRight p := by
  rintro (hlt | ⟨rfl, rfl⟩)
  · rcases h with h | h <;> omega
  · rcases h with h | ⟨-, h⟩
    · exact absurd h (Nat.lt_irrefl _)
    · exact h rfl

private theorem allowsLeft_of_not_allowsRight {p q : BinaryOp} (h : ¬ q.AllowsRight p) :
    p.AllowsLeft q := by
  have hle : p.precedence ≤ q.precedence := Nat.le_of_not_lt fun hlt => h (.inl hlt)
  rcases Nat.lt_or_eq_of_le hle with hlt | heq
  · exact .inl hlt
  · refine .inr ⟨heq.symm, ?_⟩
    rintro rfl
    exact h (.inr ⟨(precedence_eq_four_iff q).mp heq.symm, rfl⟩)

/-- What may stand below the root of a right operand may stand there itself. -/
theorem AllowsRight.trans_le {p q r : BinaryOp} (h : p.AllowsRight q)
    (hle : q.precedence ≤ r.precedence) : p.AllowsRight r := by
  rcases h with hlt | ⟨rfl, rfl⟩
  · exact .inl (Nat.lt_of_lt_of_le hlt hle)
  · refine .inr ⟨rfl, (precedence_eq_four_iff r).mp ?_⟩
    exact Nat.le_antisymm r.precedence_le hle

/-- The least precedence of what a right operand of the operator takes in. -/
def bound (p : BinaryOp) : Nat :=
  if p = .arith .power then p.precedence else p.precedence + 1

private theorem allowsRight_iff {p q : BinaryOp} : p.AllowsRight q ↔ p.bound ≤ q.precedence := by
  rw [bound, AllowsRight]
  split
  next hp =>
    have hfour := (precedence_eq_four_iff p).mpr hp
    have hq := q.precedence_le
    rw [← precedence_eq_four_iff p, ← precedence_eq_four_iff q]
    omega
  next hp =>
    exact or_iff_left fun h => hp h.1

end BinaryOp

namespace Chain

def join (c : Chain) (op : BinaryOp) (d : Chain) : Chain :=
  ⟨c.first, c.rest ++ (op, d.first) :: d.rest⟩

private theorem join_add (c : Chain) (op : BinaryOp) (d : Chain) (q : BinaryOp) (e : Expr) :
    c.join op (d.add q e) = (c.join op d).add q e := by
  simp [join, add]

/-- An operator of another precedence separates what is joined before it from what is after it. -/
theorem joinLeft_join {p : Nat} {op : BinaryOp} (hop : op.precedence ≠ p) (c d : Chain) :
    joinLeft p (c.join op d).first (c.join op d).rest =
      (joinLeft p c.first c.rest).join op (joinLeft p d.first d.rest) := by
  obtain ⟨first, rest⟩ := c
  simp only [join]
  induction rest generalizing first with
  | nil => simp [joinLeft, hop]
  | cons x rest ih =>
    simp only [List.cons_append, joinLeft, ih]
    split <;> rfl

private theorem joinRight_join {p : Nat} {op : BinaryOp} (hop : op.precedence ≠ p) (c d : Chain) :
    joinRight p (c.join op d).first (c.join op d).rest =
      (joinRight p c.first c.rest).join op (joinRight p d.first d.rest) := by
  obtain ⟨first, rest⟩ := c
  simp only [join]
  induction rest generalizing first with
  | nil => simp [joinRight, hop]
  | cons x rest ih =>
    simp only [List.cons_append, joinRight, ih]
    split <;> rfl

/-- An operator after a chain that is joined to one operand takes it as its left side. -/
theorem joinLeft_add {p : Nat} {op : BinaryOp} (hop : op.precedence = p) {c : Chain} {e : Expr}
    (hc : joinLeft p c.first c.rest = ⟨e, []⟩) (right : Expr) :
    joinLeft p c.first (c.rest ++ [(op, right)]) = ⟨.binary op e right, []⟩ := by
  obtain ⟨first, rest⟩ := c
  simp only at hc ⊢
  induction rest generalizing first with
  | nil =>
    cases hc
    simp [joinLeft, hop]
  | cons x rest ih =>
    rw [joinLeft] at hc
    split at hc
    next hx =>
      rw [List.cons_append, joinLeft, if_pos hx]
      exact ih _ hc
    next => cases hc

end Chain

/-- The operators of one level of brackets over its operands, each of which is taken as a whole. -/
inductive OpTree where
  | operand (e : Expr)
  | node (op : BinaryOp) (left right : OpTree)

namespace OpTree

def expr : OpTree → Expr
  | .operand e => e
  | .node op left right => .binary op left.expr right.expr

def inorder : OpTree → Chain
  | .operand e => ⟨e, []⟩
  | .node op left right => left.inorder.join op right.inorder

def root? : OpTree → Option BinaryOp
  | .operand _ => none
  | .node op .. => some op

inductive Ordered : OpTree → Prop where
  | operand (e : Expr) : Ordered (.operand e)
  | node {op : BinaryOp} {left right : OpTree}
      (allowsLeft : ∀ q, left.root? = some q → op.AllowsLeft q)
      (allowsRight : ∀ q, right.root? = some q → op.AllowsRight q)
      (orderedLeft : Ordered left) (orderedRight : Ordered right) :
      Ordered (.node op left right)

/-- The chain of a tree whose parts with a root of precedence `p` or more are joined. -/
def joined (p : Nat) : OpTree → Chain
  | .operand e => ⟨e, []⟩
  | .node op left right =>
    if p ≤ op.precedence then ⟨(node op left right).expr, []⟩
    else (left.joined p).join op (right.joined p)

private theorem joined_of_root {p : Nat} {t : OpTree}
    (h : ∀ q, t.root? = some q → p ≤ q.precedence) : t.joined p = ⟨t.expr, []⟩ := by
  cases t with
  | operand e => rfl
  | node op left right => rw [joined, if_pos (h op rfl)]

private theorem joined_one (t : OpTree) : t.joined 1 = ⟨t.expr, []⟩ :=
  joined_of_root fun q _ => q.precedence_pos

private theorem joined_five (t : OpTree) : t.joined 5 = t.inorder := by
  induction t with
  | operand e => rfl
  | node op left right ihl ihr =>
    have hop := op.precedence_le
    rw [joined, if_neg (by omega), ihl, ihr, inorder]

/-- Joining from the left around the operators of one precedence, if all that bind tighter are
joined. -/
theorem joinLeft_joined {p : Nat} (hp : p ≠ 4) {t : OpTree} (h : t.Ordered) :
    Chain.joinLeft p (t.joined (p + 1)).first (t.joined (p + 1)).rest = t.joined p := by
  induction h with
  | operand e => rfl
  | @node op left right allowsLeft allowsRight orderedLeft orderedRight ihl ihr =>
    rcases Nat.lt_trichotomy op.precedence p with hlt | heq | hgt
    · rw [joined, if_neg (by omega), joined, if_neg (by omega),
        Chain.joinLeft_join (by omega), ihl, ihr]
    · have hleft : left.joined p = ⟨left.expr, []⟩ := by
        apply joined_of_root
        intro q hq
        exact heq ▸ (allowsLeft q hq).le
      have hright : right.joined (p + 1) = ⟨right.expr, []⟩ := by
        apply joined_of_root
        intro q hq
        rcases allowsRight q hq with h | ⟨h, -⟩
        · omega
        · exact absurd (heq ▸ (BinaryOp.precedence_eq_four_iff op).mpr h) hp
      rw [hleft] at ihl
      rw [joined, if_neg (by omega), joined, if_pos (by omega), hright, expr]
      exact Chain.joinLeft_add heq ihl right.expr
    · rw [joined, if_pos (by omega), joined, if_pos (by omega)]
      rfl

private theorem joinRight_joined {t : OpTree} (h : t.Ordered) :
    Chain.joinRight 4 (t.joined 5).first (t.joined 5).rest = t.joined 4 := by
  induction h with
  | operand e => rfl
  | @node op left right allowsLeft allowsRight orderedLeft orderedRight ihl ihr =>
    have hop := op.precedence_le
    rcases Nat.lt_or_eq_of_le hop with hlt | heq
    · rw [joined, if_neg (by omega), joined, if_neg (by omega),
        Chain.joinRight_join (by omega), ihl, ihr]
    · -- Nothing binds tighter than a power, so that its left side is an operand.
      have hpower := (BinaryOp.precedence_eq_four_iff op).mp heq
      have hleft : left.joined 5 = ⟨left.expr, []⟩ := by
        apply joined_of_root
        intro q hq
        rcases allowsLeft q hq with h | ⟨-, h⟩
        · omega
        · exact absurd hpower h
      have hright : right.joined 4 = ⟨right.expr, []⟩ := by
        apply joined_of_root
        intro q hq
        exact heq ▸ (allowsRight q hq).le
      rw [hright] at ihr
      rw [joined, if_neg (by omega), joined, if_pos (by omega), hleft]
      simp only [Chain.join, List.nil_append, Chain.joinRight, ihr, if_pos heq, expr]

/-- The tree of a chain is that of any precedence tree over it. -/
theorem tree_inorder {t : OpTree} (h : t.Ordered) : t.inorder.tree = t.expr := by
  rw [← joined_five, Chain.tree]
  simp only [joinRight_joined h, joinLeft_joined (p := 3) (by decide) h,
    joinLeft_joined (p := 2) (by decide) h, joinLeft_joined (p := 1) (by decide) h, joined_one]

def push : OpTree → BinaryOp → Expr → OpTree
  | .operand a, op, e => .node op (.operand a) (.operand e)
  | .node p left right, op, e =>
    if p.AllowsRight op then .node p left (right.push op e)
    else .node op (.node p left right) (.operand e)

private theorem inorder_push (t : OpTree) (op : BinaryOp) (e : Expr) :
    (t.push op e).inorder = t.inorder.add op e := by
  induction t with
  | operand a => rfl
  | node p left right ihl ihr =>
    rw [push]
    split
    · rw [inorder, ihr, Chain.join_add, inorder]
    · rfl

private theorem root_push (t : OpTree) (op : BinaryOp) (e : Expr) :
    (t.push op e).root? = some op ∨ (t.push op e).root? = t.root? := by
  cases t with
  | operand a => exact .inl rfl
  | node p left right =>
    rw [push]
    split
    · exact .inr rfl
    · exact .inl rfl

theorem Ordered.push {t : OpTree} (h : t.Ordered) (op : BinaryOp) (e : Expr) :
    (t.push op e).Ordered := by
  induction h with
  | operand a => exact .node nofun nofun (.operand a) (.operand e)
  | @node p left right allowsLeft allowsRight orderedLeft orderedRight ihl ihr =>
    rw [OpTree.push]
    split
    next hp =>
      refine .node allowsLeft ?_ orderedLeft ihr
      intro q hq
      rcases right.root_push op e with hroot | hroot
      · rw [hroot] at hq
        cases hq
        exact hp
      · exact allowsRight q (hroot ▸ hq)
    next hp =>
      refine .node ?_ nofun (.node allowsLeft allowsRight orderedLeft orderedRight) (.operand e)
      rintro q ⟨⟩
      exact BinaryOp.allowsLeft_of_not_allowsRight hp

def pushAll (t : OpTree) (rest : List (BinaryOp × Expr)) : OpTree :=
  rest.foldl (fun t x => t.push x.1 x.2) t

private theorem ordered_pushAll {t : OpTree} (h : t.Ordered) (rest : List (BinaryOp × Expr)) :
    (t.pushAll rest).Ordered := by
  induction rest generalizing t with
  | nil => exact h
  | cons x rest ih => exact ih (h.push x.1 x.2)

private theorem inorder_pushAll (t : OpTree) (rest : List (BinaryOp × Expr)) :
    (t.pushAll rest).inorder = ⟨t.inorder.first, t.inorder.rest ++ rest⟩ := by
  induction rest generalizing t with
  | nil => simp [pushAll]
  | cons x rest ih =>
    have hrest := ih (t.push x.1 x.2)
    rw [inorder_push] at hrest
    simpa [pushAll, Chain.add] using hrest

def ofChain (c : Chain) : OpTree := (operand c.first).pushAll c.rest

theorem ordered_ofChain (c : Chain) : (ofChain c).Ordered := ordered_pushAll (.operand _) _

theorem inorder_ofChain (c : Chain) : (ofChain c).inorder = c := inorder_pushAll _ _

theorem expr_ofChain (c : Chain) : (ofChain c).expr = c.tree := by
  rw [← tree_inorder (ordered_ofChain c), inorder_ofChain]

/-- The operators of a precedence tree bind at least as tightly as its root. -/
theorem Ordered.root_le {t : OpTree} (h : t.Ordered) :
    ∀ q, t.root? = some q → ∀ x ∈ t.inorder.rest, q.precedence ≤ x.1.precedence := by
  induction h with
  | operand e => nofun
  | @node op left right allowsLeft allowsRight orderedLeft orderedRight ihl ihr =>
    rintro _ ⟨⟩ x hx
    have below {t : OpTree} (hle : ∀ q, t.root? = some q → op.precedence ≤ q.precedence)
        (ih : ∀ q, t.root? = some q → ∀ x ∈ t.inorder.rest, q.precedence ≤ x.1.precedence)
        (hx : x ∈ t.inorder.rest) : op.precedence ≤ x.1.precedence := by
      cases t with
      | operand e => cases hx
      | node q l r => exact Nat.le_trans (hle q rfl) (ih q rfl x hx)
    simp only [inorder, Chain.join, List.mem_append, List.mem_cons] at hx
    rcases hx with hx | rfl | hx
    · exact below (fun q hq => (allowsLeft q hq).le) ihl hx
    · exact Nat.le_refl _
    · exact below (fun q hq => (allowsRight q hq).le) ihr hx

private theorem pushAll_node {op : BinaryOp} (left right : OpTree) {rest : List (BinaryOp × Expr)}
    (h : ∀ x ∈ rest, op.AllowsRight x.1) :
    (node op left right).pushAll rest = .node op left (right.pushAll rest) := by
  induction rest generalizing right with
  | nil => rfl
  | cons x rest ih =>
    obtain ⟨hx, hrest⟩ := List.forall_mem_cons.mp h
    have hpush : (node op left right).push x.1 x.2 = .node op left (right.push x.1 x.2) :=
      if_pos hx
    rw [pushAll, List.foldl_cons, hpush]
    exact ih _ hrest

/-- A precedence tree is made from its operands and operators alone. -/
theorem ofChain_inorder {t : OpTree} (h : t.Ordered) : ofChain t.inorder = t := by
  induction h with
  | operand e => rfl
  | @node op left right allowsLeft allowsRight orderedLeft orderedRight ihl ihr =>
    have hroot : left.push op right.inorder.first = .node op left (.operand right.inorder.first) := by
      cases left with
      | operand a => rfl
      | node p l r => exact if_neg (BinaryOp.not_allowsRight_of_allowsLeft (allowsLeft p rfl))
    have hrest : ∀ x ∈ right.inorder.rest, op.AllowsRight x.1 := by
      intro x hx
      cases right with
      | operand a => cases hx
      | node p l r => exact (allowsRight p rfl).trans_le (orderedRight.root_le p rfl x hx)
    calc ofChain (node op left right).inorder
      _ = ((ofChain left.inorder).push op right.inorder.first).pushAll right.inorder.rest := by
        simp [ofChain, pushAll, inorder, Chain.join]
      _ = .node op left (ofChain right.inorder) := by
        rw [ihl, hroot, pushAll_node _ _ hrest, ofChain]
      _ = .node op left right := by rw [ihr]

end OpTree

namespace Chain

/-- Takes in the operators of a least precedence that follow an expression, each with a right operand
that takes in those of its bound. The first operator that is left binds less tightly. -/
def climb (least : Nat) (left : Expr) :
    (rest : List (BinaryOp × Expr)) → { c : Chain // c.rest.length ≤ rest.length }
  | [] => ⟨⟨left, []⟩, Nat.le_refl _⟩
  | (op, operand) :: rest =>
    if op.precedence < least then ⟨⟨left, (op, operand) :: rest⟩, Nat.le_refl _⟩
    else
      let right := climb op.bound operand rest
      have hright : right.1.rest.length < rest.length + 1 := Nat.lt_succ_of_le right.2
      let joined := climb least (.binary op left right.1.first) right.1.rest
      ⟨joined.1, Nat.le_trans joined.2 (Nat.le_of_lt hright)⟩
termination_by rest => rest.length
decreasing_by
  · exact Nat.lt_succ_self rest.length
  · exact hright

/-- Nothing is taken in before an operator that binds less tightly, or at the end. -/
theorem climb_of_lt {least : Nat} {rest : List (BinaryOp × Expr)}
    (h : ∀ x ∈ rest.head?, x.1.precedence < least) (left : Expr) :
    (climb least left rest).1 = ⟨left, rest⟩ := by
  cases rest with
  | nil => rw [climb]
  | cons x rest => rw [climb, if_pos (h x rfl)]

private theorem climb_cons {least : Nat} {op : BinaryOp} (h : least ≤ op.precedence)
    (left operand : Expr) {rest : List (BinaryOp × Expr)} {right : Chain}
    (hright : (climb op.bound operand rest).1 = right) :
    (climb least left ((op, operand) :: rest)).1 =
      (climb least (.binary op left right.first) right.rest).1 := by
  subst hright
  rw [climb, if_neg (Nat.not_lt.mpr h)]

/-- A precedence tree is taken in as a whole if its root may be, unless what follows belongs to its
right operand. -/
theorem climb_inorder {t : OpTree} (h : t.Ordered) {least : Nat}
    (hroot : ∀ q, t.root? = some q → least ≤ q.precedence) {more : List (BinaryOp × Expr)}
    (hmore : ∀ q, t.root? = some q → ∀ x ∈ more.head?, ¬ q.AllowsRight x.1) :
    (climb least t.inorder.first (t.inorder.rest ++ more)).1 = (climb least t.expr more).1 := by
  induction h generalizing least more with
  | operand e => rfl
  | @node op left right allowsLeft allowsRight orderedLeft orderedRight ihl ihr =>
    have hop : least ≤ op.precedence := hroot op rfl
    have hstop : ∀ x ∈ more.head?, x.1.precedence < op.bound := by
      intro x hx
      exact Nat.lt_of_not_le fun hle => hmore op rfl x hx (BinaryOp.allowsRight_iff.mpr hle)
    -- What stops the operator stops every operator in its right operand.
    have hright : (climb op.bound right.inorder.first (right.inorder.rest ++ more)).1 =
        ⟨right.expr, more⟩ := by
      rw [ihr, climb_of_lt hstop]
      · exact fun q hq => BinaryOp.allowsRight_iff.mp (allowsRight q hq)
      · intro q hq x hx hallows
        exact hmore op rfl x hx ((allowsRight q hq).trans_le hallows.le)
    calc (climb least (left.inorder.join op right.inorder).first
          ((left.inorder.join op right.inorder).rest ++ more)).1
      _ = (climb least left.expr ((op, right.inorder.first) :: (right.inorder.rest ++ more))).1 := by
        rw [Chain.join, List.append_assoc, List.cons_append, ihl]
        · exact fun q hq => Nat.le_trans hop (allowsLeft q hq).le
        · rintro q hq _ ⟨⟩
          exact BinaryOp.not_allowsRight_of_allowsLeft (allowsLeft q hq)
      _ = (climb least (.binary op left.expr right.expr) more).1 := climb_cons hop _ _ hright

/-- Climbing over all operators gives the tree of a chain. -/
theorem climb_eq_tree {least : Nat} (hleast : least ≤ 1) (c : Chain) :
    (climb least c.first c.rest).1 = ⟨c.tree, []⟩ := by
  have hroot : ∀ q, (OpTree.ofChain c).root? = some q → least ≤ q.precedence :=
    fun q _ => Nat.le_trans hleast q.precedence_pos
  calc (climb least c.first c.rest).1
    _ = (climb least (OpTree.ofChain c).inorder.first
          ((OpTree.ofChain c).inorder.rest ++ [])).1 := by
      rw [OpTree.inorder_ofChain, List.append_nil]
    _ = (climb least (OpTree.ofChain c).expr []).1 :=
      climb_inorder (OpTree.ordered_ofChain c) hroot (by simp)
    _ = ⟨c.tree, []⟩ := by rw [climb_of_lt (by simp), OpTree.expr_ofChain]

/-- An operand after a sign takes in no operator. -/
theorem climb_five (left : Expr) (rest : List (BinaryOp × Expr)) :
    (climb 5 left rest).1 = ⟨left, rest⟩ :=
  climb_of_lt (fun x _ => Nat.lt_succ_of_le x.1.precedence_le) left

end Chain

end PipeQuery
