import PipeQuery.Proofs.Group.Flatten

/-!
Which lists of tokens can be structured: those whose brackets are balanced, whose pipes stand before
commands and whose function names stand before open brackets. Reading decides this token by token,
and the number of levels around the innermost one is the number of brackets still to be closed.
-/
namespace PipeQuery

namespace Token

def opens (ts : List Token) : Nat := ts.countP (·.kind == .openBracket)

def closes (ts : List Token) : Nat := ts.countP (·.kind == .closeBracket)

def FollowedBy (first second : TokenKind) (ts : List Token) : Prop :=
  ∀ front t back, ts = front ++ t :: back → t.kind = first → back.head?.map (·.kind) = some second

private theorem followedBy_nil (first second : TokenKind) : FollowedBy first second [] := by
  intro front t back h
  simp at h

theorem followedBy_cons {first second : TokenKind} {t : Token} {ts : List Token} :
    FollowedBy first second (t :: ts) ↔
      (t.kind = first → ts.head?.map (·.kind) = some second) ∧ FollowedBy first second ts := by
  constructor
  · intro h
    refine ⟨h [] t ts rfl, ?_⟩
    intro front u back hts
    exact h (t :: front) u back (by rw [hts, List.cons_append])
  · rintro ⟨hhead, htail⟩ front u back hts
    cases front with
    | nil =>
      cases hts
      exact hhead
    | cons v front =>
      cases hts
      exact htail front u back rfl

/-- The brackets close each other and `depth` brackets that were open before. -/
structure Balanced (depth : Nat) (ts : List Token) : Prop where
  closes_le : ∀ front, front <+: ts → closes front ≤ depth + opens front
  closes_eq : closes ts = depth + opens ts

private theorem balanced_nil {depth : Nat} : Balanced depth [] ↔ depth = 0 := by
  constructor
  · intro h
    simpa [opens, closes, eq_comm] using h.closes_eq
  · rintro rfl
    exact ⟨by simp [opens, closes], rfl⟩

private theorem opens_cons (t : Token) (ts : List Token) :
    opens (t :: ts) = opens [t] + opens ts := by
  rw [Nat.add_comm]
  simp [opens, List.countP_cons]

private theorem closes_cons (t : Token) (ts : List Token) :
    closes (t :: ts) = closes [t] + closes ts := by
  rw [Nat.add_comm]
  simp [closes, List.countP_cons]

/-- A first token changes the depth at which the rest has to be balanced. -/
theorem balanced_cons {depth : Nat} {t : Token} {ts : List Token} :
    Balanced depth (t :: ts) ↔
      closes [t] ≤ depth + opens [t] ∧ Balanced (depth + opens [t] - closes [t]) ts := by
  constructor
  · rintro ⟨hle, heq⟩
    have ht := hle [t] (by simp)
    rw [closes_cons, opens_cons] at heq
    refine ⟨ht, ?_, by omega⟩
    intro front hfront
    have hf := hle (t :: front) (List.cons_prefix_cons.mpr ⟨rfl, hfront⟩)
    rw [closes_cons, opens_cons] at hf
    omega
  · rintro ⟨ht, hle, heq⟩
    refine ⟨?_, by rw [closes_cons, opens_cons]; omega⟩
    intro front hfront
    rcases List.prefix_cons_iff.mp hfront with rfl | ⟨rest, rfl, hrest⟩
    · simp [closes]
    · have hr := hle rest hrest
      rw [closes_cons, opens_cons]
      omega

structure WellStructured (depth : Nat) (ts : List Token) : Prop where
  balanced : Balanced depth ts
  pipes : FollowedBy .pipe .command ts
  functions : FollowedBy .functionName .openBracket ts

namespace WellStructured
variable {depth : Nat} {t u : Token} {ts : List Token}

theorem nil_iff : WellStructured depth [] ↔ depth = 0 :=
  ⟨fun h => balanced_nil.mp h.balanced,
    fun h => ⟨balanced_nil.mpr h, followedBy_nil _ _, followedBy_nil _ _⟩⟩

private theorem cons_iff : WellStructured depth (t :: ts) ↔
    closes [t] ≤ depth + opens [t] ∧
      (t.kind = .pipe → ts.head?.map (·.kind) = some .command) ∧
      (t.kind = .functionName → ts.head?.map (·.kind) = some .openBracket) ∧
      WellStructured (depth + opens [t] - closes [t]) ts := by
  constructor
  · rintro ⟨hb, hp, hf⟩
    obtain ⟨ht, hb⟩ := balanced_cons.mp hb
    obtain ⟨htp, hp⟩ := followedBy_cons.mp hp
    obtain ⟨htf, hf⟩ := followedBy_cons.mp hf
    exact ⟨ht, htp, htf, hb, hp, hf⟩
  · rintro ⟨ht, htp, htf, hb, hp, hf⟩
    exact ⟨balanced_cons.mpr ⟨ht, hb⟩, followedBy_cons.mpr ⟨htp, hp⟩,
      followedBy_cons.mpr ⟨htf, hf⟩⟩

private theorem not_close_zero (h : t.kind = .closeBracket) : ¬ WellStructured 0 (t :: ts) := by
  simp [cons_iff, opens, closes, h]

private theorem close_iff (h : t.kind = .closeBracket) :
    WellStructured (depth + 1) (t :: ts) ↔ WellStructured depth ts := by
  simp [cons_iff, opens, closes, h]

private theorem open_iff (h : t.kind = .openBracket) :
    WellStructured depth (t :: ts) ↔ WellStructured (depth + 1) ts := by
  simp [cons_iff, opens, closes, h]

private theorem pipe_iff (h : t.kind = .pipe) :
    WellStructured depth (t :: u :: ts) ↔ u.kind = .command ∧ WellStructured depth ts := by
  simp +contextual [cons_iff, opens, closes, h]

private theorem function_iff (h : t.kind = .functionName) :
    WellStructured depth (t :: u :: ts) ↔
      u.kind = .openBracket ∧ WellStructured (depth + 1) ts := by
  simp +contextual [cons_iff, opens, closes, h]

private theorem not_pipe_last (h : t.kind = .pipe) : ¬ WellStructured depth [t] := by
  simp [cons_iff, h]

private theorem not_function_last (h : t.kind = .functionName) : ¬ WellStructured depth [t] := by
  simp [cons_iff, h]

theorem leaf_iff (hclose : t.kind ≠ .closeBracket) (hopen : t.kind ≠ .openBracket)
    (hpipe : t.kind ≠ .pipe) (hfun : t.kind ≠ .functionName) :
    WellStructured depth (t :: ts) ↔ WellStructured depth ts := by
  simp [cons_iff, opens, closes, hclose, hopen, hpipe, hfun]

end WellStructured

/-- Whether tokens are well structured can be seen from their kinds. -/
theorem wellStructured_congr {ts us : List Token} (h : ts.map (·.kind) = us.map (·.kind))
    (depth : Nat) : WellStructured depth ts ↔ WellStructured depth us := by
  induction ts generalizing us depth with
  | nil =>
    obtain rfl := List.map_eq_nil_iff.mp h.symm
    exact Iff.rfl
  | cons t ts ih =>
    obtain ⟨u, us, rfl, hkind, hrest⟩ := List.map_eq_cons_iff.mp h.symm
    have hopens : opens [t] = opens [u] := by simp [opens, hkind]
    have hcloses : closes [t] = closes [u] := by simp [closes, hkind]
    have hhead : ts.head?.map (·.kind) = us.head?.map (·.kind) := by
      rw [← List.head?_map, ← List.head?_map, hrest]
    rw [WellStructured.cons_iff, WellStructured.cons_iff, ih hrest.symm, hopens, hcloses, hhead,
      hkind]

end Token
open Token

/-- Reading succeeds exactly on lists that are well structured at the depth of the reading. What has
been read before makes no difference. -/
theorem Level.exists_read_eq_ok_iff (outer : List (Opening × Level)) (level : Level)
    (ts : List Token) :
    (∃ nodes, read outer level ts = .ok nodes) ↔ WellStructured outer.length ts := by
  fun_induction read outer level ts with
  | case1 level => simp [WellStructured.nil_iff]
  | case2 opening around outer level => simp [WellStructured.nil_iff]
  | case3 level t ts ht => simp [WellStructured.not_close_zero ht]
  | case4 level t ts ht opening around outer ih =>
    rw [ih, List.length_cons, WellStructured.close_iff ht]
  | case5 outer level t ht => simp [WellStructured.not_pipe_last ht]
  | case6 outer level t ht c ts hc ih => simp [ih, WellStructured.pipe_iff ht, hc]
  | case7 outer level t ht c ts hc => simp [WellStructured.pipe_iff ht, hc]
  | case8 outer level t ht => simp [WellStructured.not_function_last ht]
  | case9 outer level t ht b ts hb ih => simp [ih, WellStructured.function_iff ht, hb]
  | case10 outer level t ht b ts hb => simp [WellStructured.function_iff ht, hb]
  | case11 outer level t ts ht ih => rw [ih, List.length_cons, WellStructured.open_iff ht]
  | case12 level t ts c ht ih => rw [ih, WellStructured.leaf_iff] <;> simp [ht]
  | case13 level t ts c ht head tail ih => rw [ih, WellStructured.leaf_iff] <;> simp [ht]
  | case14 outer level t ts hclose hpipe hfun hopen hclause ih =>
    rw [ih, WellStructured.leaf_iff hclose hopen hpipe hfun]

theorem Group.exists_ofTokens_eq_ok_iff (tokens : List Token) :
    (∃ root, ofTokens tokens = .ok root) ↔ WellStructured 0 (meaningful tokens) := by
  rw [← List.length_nil, ← Level.exists_read_eq_ok_iff [] {}, ofTokens_eq]
  cases Level.read [] {} (meaningful tokens) with
  | error e => simp [Except.map]
  | ok nodes => simp [Except.map]

/-- A list of tokens can be structured if and only if, without its blanks and comments, no front
part has more close than open brackets and the whole has as many of both, every pipe stands directly
before a command, and every function name directly before an open bracket. -/
theorem Group.ofTokens_accepts_iff (tokens : List Token) :
    (∃ root, ofTokens tokens = .ok root) ↔
      ((∀ front, front <+: meaningful tokens → closes front ≤ opens front) ∧
        closes (meaningful tokens) = opens (meaningful tokens)) ∧
      FollowedBy .pipe .command (meaningful tokens) ∧
      FollowedBy .functionName .openBracket (meaningful tokens) := by
  rw [exists_ofTokens_eq_ok_iff]
  constructor
  · rintro ⟨⟨hle, heq⟩, hp, hf⟩
    rw [Nat.zero_add] at heq
    refine ⟨⟨?_, heq⟩, hp, hf⟩
    intro front hfront
    simpa using hle front hfront
  · rintro ⟨⟨hle, heq⟩, hp, hf⟩
    refine ⟨⟨?_, by rw [heq, Nat.zero_add]⟩, hp, hf⟩
    intro front hfront
    simpa using hle front hfront

end PipeQuery
