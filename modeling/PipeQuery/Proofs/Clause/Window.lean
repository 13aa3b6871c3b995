import Mathlib.Data.List.Perm.Basic
import PipeQuery.Clause.Reader
import PipeQuery.Group.Structure
import PipeQuery.Proofs.Result
import PipeQuery.Token.Lexer

/-!
The language of `window` clauses. The options of a clause are pairs of a word and a value. A clause
that has its pairs one after the other is read with them, in whatever order they stand. The reader
takes one pair out before it looks for the next, so it also accepts a pair that stands between the
word and the value of another.
-/
namespace PipeQuery.WindowClause

abbrev Pair := Node × Node

structure Options where
  size : Pair
  advance : Option Pair := none
  function : Option Pair := none

def flat (pairs : List Pair) : List Node := pairs.flatMap fun p => [p.1, p.2]

def isBy (n : Node) : Bool := n.kind == .byWord

namespace Options

/-- The window that the options ask for. Without an advance it moves by its size. -/
def window (o : Options) (field : Node) : Window where
  timeField := field.unescaped
  size := o.size.2.unescaped
  advance := (o.advance.getD o.size).2.unescaped
  function := o.function.map (·.2.unescaped)

structure Worded (o : Options) : Prop where
  size : isBy o.size.1 = true ∧ o.size.2.kind = .duration
  advance : ∀ p ∈ o.advance, isWord "advance" p.1 = true ∧ p.2.kind = .duration
  function : ∀ p ∈ o.function, isWord "using" p.1 = true

/-- The nodes are the pairs one after the other, in some order. The function is none of the words
that are looked for before it. -/
structure Written (o : Options) (nodes : List Node) : Prop where
  order : ∃ pairs : List Pair,
    pairs.Perm (o.size :: (o.advance.toList ++ o.function.toList)) ∧ nodes = flat pairs
  function : ∀ p ∈ o.function, isBy p.2 = false ∧ isWord "advance" p.2 = false

end Options

/-- The second nodes are the first ones with a pair put in somewhere, after nodes that cannot be
taken for its word. -/
def Puts (test : Node → Bool) (p : Pair) (inner nodes : List Node) : Prop :=
  ∃ before after, inner = before ++ after ∧ nodes = before ++ p.1 :: p.2 :: after ∧
    ∀ n ∈ before, test n = false

def PutsOption (test : Node → Bool) : Option Pair → List Node → List Node → Prop
  | some p, inner, nodes => Puts test p inner nodes
  | none, inner, nodes => nodes = inner ∧ ∀ n ∈ inner, test n = false

/-- The nodes are the pair of the function with the pair of the advance put in somewhere, and then
that of the size. -/
def Options.Fits (o : Options) (nodes : List Node) : Prop :=
  ∃ inner, PutsOption (isWord "advance") o.advance (flat o.function.toList) inner ∧
    Puts isBy o.size inner nodes

section Cut
variable {α : Type} {p : α → Bool}

private theorem cutAt?_eq_some_iff {as before after : List α} {a : α} :
    cutAt? p as = some (before, a, after) ↔
      as = before ++ a :: after ∧ p a = true ∧ ∀ b ∈ before, p b = false := by
  induction as generalizing before with
  | nil => simp [cutAt?]
  | cons b as ih =>
    rw [cutAt?]
    split
    next hb =>
      constructor
      · intro h
        cases h
        exact ⟨rfl, hb, by simp⟩
      · rintro ⟨happend, ha, hbefore⟩
        cases before with
        | nil =>
          cases happend
          rfl
        | cons c before =>
          obtain ⟨rfl, -⟩ := List.cons.inj happend
          rw [hbefore b List.mem_cons_self] at hb
          cases hb
    next hb =>
      constructor
      · intro h
        obtain ⟨⟨before', a', after'⟩, hcut, heq⟩ := Option.map_eq_some_iff.mp h
        cases heq
        obtain ⟨rfl, ha, hbefore⟩ := ih.mp hcut
        refine ⟨rfl, ha, ?_⟩
        rw [List.forall_mem_cons]
        exact ⟨by simpa using hb, hbefore⟩
      · rintro ⟨happend, ha, hbefore⟩
        cases before with
        | nil =>
          obtain ⟨rfl, -⟩ := List.cons.inj happend
          exact absurd ha hb
        | cons c before =>
          obtain ⟨rfl, hrest⟩ := List.cons.inj happend
          rw [List.forall_mem_cons] at hbefore
          rw [ih.mpr ⟨hrest, ha, hbefore.2⟩]
          rfl

private theorem cutAt?_eq_none_iff {as : List α} : cutAt? p as = none ↔ ∀ a ∈ as, p a = false := by
  induction as with
  | nil => simp [cutAt?]
  | cons a as ih =>
    rw [cutAt?, List.forall_mem_cons]
    split
    next ha => simp [ha]
    next ha => simp [ha, ih]

end Cut

private theorem takeDuration_eq_ok_iff {part : WindowPart} {before after rest : List Node}
    {word : Node} {value : String} :
    takeDuration part before word after = .ok (value, rest) ↔
      ∃ d tail, after = d :: tail ∧ d.kind = .duration ∧ value = d.unescaped ∧
        rest = before ++ tail := by
  cases after with
  | nil => simp [takeDuration]
  | cons d tail =>
    rw [takeDuration]
    split
    next hd => simp [hd, eq_comm]
    next hd => simp [hd]

section
variable {test : Node → Bool} {nodes rest : List Node}

/-- A word that is found and a duration after it are a pair that was put in. -/
theorem takeDuration_of_cut {part : WindowPart} {before after : List Node} {word : Node}
    {value : String} (hcut : cutAt? test nodes = some (before, word, after)) :
    takeDuration part before word after = .ok (value, rest) ↔
      ∃ p : Pair, (test p.1 = true ∧ p.2.kind = .duration) ∧ value = p.2.unescaped ∧
        Puts test p rest nodes := by
  rw [takeDuration_eq_ok_iff]
  constructor
  · rintro ⟨d, tail, rfl, hd, hvalue, hrest⟩
    obtain ⟨hnodes, hword, hbefore⟩ := cutAt?_eq_some_iff.mp hcut
    exact ⟨(word, d), ⟨hword, hd⟩, hvalue, before, tail, hrest, hnodes, hbefore⟩
  · rintro ⟨p, ⟨hword, hd⟩, hvalue, before', tail, hrest, hnodes, hbefore⟩
    cases hcut.symm.trans (cutAt?_eq_some_iff.mpr ⟨hnodes, hword, hbefore⟩)
    exact ⟨p.2, tail, rfl, hd, hvalue, hrest⟩

private theorem Puts.cutAt?_ne_none {p : Pair} (h : Puts test p rest nodes) (hp : test p.1 = true) :
    cutAt? test nodes ≠ none := by
  obtain ⟨before, after, -, hnodes, hbefore⟩ := h
  rw [cutAt?_eq_some_iff.mpr ⟨hnodes, hp, hbefore⟩]
  exact Option.some_ne_none _

end

/-- The size is the first pair that starts with `by`. -/
theorem readSize_eq_ok_iff {clause : Group} {nodes rest : List Node} {value : String} :
    readSize clause nodes = .ok (value, rest) ↔
      ∃ p : Pair, (isBy p.1 = true ∧ p.2.kind = .duration) ∧ value = p.2.unescaped ∧
        Puts isBy p rest nodes := by
  rw [readSize]
  split
  next hcut =>
    constructor
    · intro h
      cases h
    · rintro ⟨p, hp, -, hputs⟩
      exact absurd hcut (hputs.cutAt?_ne_none hp.1)
  next hcut => exact takeDuration_of_cut hcut

/-- The advance is the first pair that starts with its word, if there is such a word. -/
theorem readAdvance_eq_ok_iff {nodes rest : List Node} {size value : String} :
    readAdvance size nodes = .ok (value, rest) ↔
      ∃ advance : Option Pair,
        (∀ p ∈ advance, isWord "advance" p.1 = true ∧ p.2.kind = .duration) ∧
        value = (advance.map (·.2.unescaped)).getD size ∧
        PutsOption (isWord "advance") advance rest nodes := by
  rw [readAdvance]
  cases hcut : cutAt? (isWord "advance") nodes with
  | none =>
    constructor
    · intro h
      cases h
      exact ⟨none, by simp, rfl, rfl, cutAt?_eq_none_iff.mp hcut⟩
    · rintro ⟨advance, hadvance, rfl, hputs⟩
      cases advance with
      | none =>
        cases hputs.1
        rfl
      | some p => exact absurd hcut (Puts.cutAt?_ne_none hputs (hadvance p rfl).1)
  | some cut =>
    refine (takeDuration_of_cut hcut).trans ?_
    constructor
    · rintro ⟨p, hp, hvalue, hputs⟩
      exact ⟨some p, by simpa using hp, hvalue, hputs⟩
    · rintro ⟨advance, hadvance, hvalue, hputs⟩
      cases advance with
      | none =>
        obtain ⟨rfl, hnone⟩ := hputs
        rw [cutAt?_eq_none_iff.mpr hnone] at hcut
        cases hcut
      | some p => exact ⟨p, hadvance p rfl, hvalue, hputs⟩

/-- Nothing is left after the function exactly if the nodes are its pair, or none. -/
theorem readFunction_eq_ok_iff {nodes : List Node} {value : Option String} :
    readFunction nodes = .ok (value, []) ↔
      ∃ function : Option Pair, (∀ p ∈ function, isWord "using" p.1 = true) ∧
        value = function.map (·.2.unescaped) ∧ nodes = flat function.toList := by
  rw [readFunction]
  constructor
  · intro h
    split at h
    next =>
      cases h
      exact ⟨none, by simp, rfl, rfl⟩
    next => cases h
    next before word f rest hcut =>
      obtain ⟨hvalue, hrest⟩ := Prod.mk.inj (Except.ok.inj h)
      obtain ⟨rfl, rfl⟩ := List.append_eq_nil_iff.mp hrest
      obtain ⟨hnodes, hword, -⟩ := cutAt?_eq_some_iff.mp hcut
      exact ⟨some (word, f), by simpa using hword, hvalue.symm, hnodes⟩
  · rintro ⟨function, hfunction, rfl, rfl⟩
    cases function with
    | none => rfl
    | some p =>
      have hcut : cutAt? (isWord "using") (flat (some p).toList) = some ([], p.1, [p.2]) :=
        cutAt?_eq_some_iff.mpr ⟨rfl, hfunction p rfl, by simp⟩
      rw [hcut]
      rfl

/-- A clause is read exactly if it has a field and then options that fit, and the window is the one
that these ask for. -/
theorem read_eq_ok_iff_fits {clause : Group} {w : Window} :
    read clause = .ok w ↔ ∃ field nodes, clause.children = field :: nodes ∧
      field.isString = true ∧ ∃ o : Options, o.Worded ∧ o.Fits nodes ∧ w = o.window field := by
  rw [read]
  constructor
  · intro h
    split at h
    next => cases h
    next field nodes hchildren =>
      split at h
      next hfield =>
        obtain ⟨⟨size, rest₁⟩, hsize, h⟩ := bind_eq_ok.mp h
        obtain ⟨⟨advance, rest₂⟩, hadvance, h⟩ := bind_eq_ok.mp h
        obtain ⟨⟨function, rest₃⟩, hfunction, h⟩ := bind_eq_ok.mp h
        cases rest₃ with
        | cons extra rest => cases h
        | nil =>
          cases h
          obtain ⟨p, hp, rfl, hputs⟩ := readSize_eq_ok_iff.mp hsize
          obtain ⟨a, ha, rfl, haputs⟩ := readAdvance_eq_ok_iff.mp hadvance
          obtain ⟨f, hf, rfl, rfl⟩ := readFunction_eq_ok_iff.mp hfunction
          refine ⟨field, nodes, hchildren, hfield, ⟨p, a, f⟩, ⟨hp, ha, hf⟩, ⟨rest₁, haputs, hputs⟩, ?_⟩
          cases a with
          | none => rfl
          | some a => rfl
      next => cases h
  · rintro ⟨field, nodes, hchildren, hfield, ⟨p, a, f⟩, hworded, ⟨inner, haputs, hputs⟩, rfl⟩
    rw [hchildren]
    simp only [hfield, if_true]
    refine bind_eq_ok.mpr ⟨_, readSize_eq_ok_iff.mpr ⟨p, hworded.size, rfl, hputs⟩, ?_⟩
    refine bind_eq_ok.mpr ⟨_, readAdvance_eq_ok_iff.mpr ⟨a, hworded.advance, rfl, haputs⟩, ?_⟩
    refine bind_eq_ok.mpr ⟨_, readFunction_eq_ok_iff.mpr ⟨f, hworded.function, rfl, rfl⟩, ?_⟩
    cases a with
    | none => rfl
    | some a => rfl

section
variable {test : Node → Bool}

private theorem forall_mem_flat {pairs : List Pair} :
    (∀ n ∈ flat pairs, test n = false) ↔ ∀ p ∈ pairs, test p.1 = false ∧ test p.2 = false := by
  constructor
  · intro h p hp
    have hmem (n : Node) (hn : n ∈ [p.1, p.2]) : test n = false :=
      h n (List.mem_flatMap.mpr ⟨p, hp, hn⟩)
    exact ⟨hmem p.1 (by simp), hmem p.2 (by simp)⟩
  · intro h n hn
    obtain ⟨p, hp, hn⟩ := List.mem_flatMap.mp hn
    obtain ⟨hword, hvalue⟩ := h p hp
    simp only [List.mem_cons, List.not_mem_nil, or_false] at hn
    rcases hn with rfl | rfl
    · exact hword
    · exact hvalue

/-- A pair among others that stand one after the other was put in between two of them. -/
theorem puts_of_perm {pairs others : List Pair} {p : Pair} (hpairs : pairs.Perm (p :: others))
    (hothers : ∀ q ∈ others, test q.1 = false ∧ test q.2 = false) :
    ∃ pairs' : List Pair, pairs'.Perm others ∧ Puts test p (flat pairs') (flat pairs) := by
  obtain ⟨front, back, rfl⟩ := List.append_of_mem (hpairs.symm.subset List.mem_cons_self)
  have hperm : (front ++ back).Perm others := (List.perm_middle.symm.trans hpairs).cons_inv
  refine ⟨front ++ back, hperm, flat front, flat back, by simp [flat], by simp [flat], ?_⟩
  rw [forall_mem_flat]
  intro q hq
  exact hothers q (hperm.subset (List.mem_append_left _ hq))

end

private theorem isBy_of_isWord {n : Node} {word : String} (h : isWord word n = true) :
    isBy n = false := by
  rw [isWord, Bool.and_eq_true] at h
  apply beq_false_of_ne
  intro hkind
  rw [Node.isString, hkind] at h
  cases h.1

/-- A node is not both of these words. -/
theorem isWord_advance_of_using {n : Node} (h : isWord "using" n = true) :
    isWord "advance" n = false := by
  rw [isWord, Bool.and_eq_true] at h
  rw [isWord, h.1, Bool.true_and]
  have husing : n.unescaped.toList.map Char.toLower = "using".toList.map Char.toLower :=
    beq_iff_eq.mp h.2
  rw [Text.sameIgnoringCase, Text.sameIgnoringCaseChars, husing]
  decide

private theorem eq_of_perm_toList {pairs : List Pair} {p : Option Pair} (h : pairs.Perm p.toList) :
    pairs = p.toList := by
  cases p with
  | none => exact h.eq_nil
  | some p => exact List.perm_singleton.mp h

/-- Pairs one after the other fit. -/
theorem Options.Worded.fits {o : Options} {nodes : List Node} (h : o.Worded)
    (hwritten : o.Written nodes) : o.Fits nodes := by
  obtain ⟨⟨pairs, hperm, rfl⟩, hfunction⟩ := hwritten
  obtain ⟨size, advance, function⟩ := o
  -- Neither a value nor the word of another option is taken for the word that is looked for.
  have hadvance : ∀ q ∈ advance.toList, isBy q.1 = false ∧ isBy q.2 = false := by
    intro q hq
    obtain ⟨hword, hvalue⟩ := h.advance q (Option.mem_toList.mp hq)
    exact ⟨isBy_of_isWord hword, by rw [isBy, hvalue]; rfl⟩
  have husing : ∀ q ∈ function.toList, isBy q.1 = false ∧ isBy q.2 = false := by
    intro q hq
    exact ⟨isBy_of_isWord (h.function q (Option.mem_toList.mp hq)),
      (hfunction q (Option.mem_toList.mp hq)).1⟩
  have hlast : ∀ q ∈ function.toList,
      isWord "advance" q.1 = false ∧ isWord "advance" q.2 = false := by
    intro q hq
    exact ⟨isWord_advance_of_using (h.function q (Option.mem_toList.mp hq)),
      (hfunction q (Option.mem_toList.mp hq)).2⟩
  obtain ⟨pairs₁, hperm₁, hsize⟩ :=
    puts_of_perm hperm (List.forall_mem_append.mpr ⟨hadvance, husing⟩)
  refine ⟨flat pairs₁, ?_, hsize⟩
  cases advance with
  | none =>
    rw [eq_of_perm_toList hperm₁]
    exact ⟨rfl, forall_mem_flat.mpr hlast⟩
  | some a =>
    obtain ⟨pairs₂, hperm₂, hputs⟩ := puts_of_perm hperm₁ hlast
    rw [eq_of_perm_toList hperm₂] at hputs
    exact hputs

/-- The language of `window` clauses. A clause with a field and then the pairs of its options, one
after the other and in whatever order, is read with their values; the function may not be one of the
words that are looked for before it. All that is read is this: the pair of the function, if there is
one, with the pair of the advance put in somewhere, if there is one, and with the pair of the size put
in somewhere. So a pair may part the word of another from its value. -/
theorem window_language (clause : Group) (w : Window) :
    (∀ field nodes, clause.children = field :: nodes → field.isString = true →
      ∀ o : Options, o.Worded → o.Written nodes → read clause = .ok (o.window field)) ∧
    (read clause = .ok w ↔ ∃ field nodes, clause.children = field :: nodes ∧
      field.isString = true ∧ ∃ o : Options, o.Worded ∧ o.Fits nodes ∧ w = o.window field) := by
  refine ⟨?_, read_eq_ok_iff_fits⟩
  intro field nodes hchildren hfield o hworded hwritten
  exact read_eq_ok_iff_fits.mpr
    ⟨field, nodes, hchildren, hfield, o, hworded, hworded.fits hwritten, rfl⟩

namespace Sample

def backwards : String := "window t using f advance 2m by 1h"

def token (text : String) (kind : TokenKind) (start stop : Nat) : Node :=
  .token ⟨kind, text, ⟨start, stop⟩⟩

def options : Options where
  size := (token backwards .byWord 28 30, token backwards .duration 31 33)
  advance := some (token backwards .word 17 24, token backwards .duration 25 27)
  function := some (token backwards .word 9 14, token backwards .word 15 16)

def keyword (text : String) : GroupKind := .clause ⟨.clause .window, text, ⟨0, 6⟩⟩

def reversed : Group :=
  ⟨keyword backwards, backwards, ⟨0, 33⟩,
    token backwards .word 7 8 ::
      flat (options.size :: (options.advance.toList ++ options.function.toList)).reverse⟩

/-- A clause with its size between the word and the value of its advance. -/
def parted : String := "window t advance by 1h 2m"

def clause : Group :=
  ⟨keyword parted, parted, ⟨0, 25⟩,
    [token parted .word 7 8, token parted .word 9 16, token parted .byWord 17 19,
      token parted .duration 20 22, token parted .duration 23 25]⟩

end Sample

open Sample in
theorem window_language_sample :
    (Group.ofTokens (Lexer.tokens backwards)).toOption.map (·.children) =
        some [reversed.toNode] ∧
      read reversed = .ok ⟨"t", "1h", "2m", some "f"⟩ := by
  refine ⟨by decide +kernel, ?_⟩
  have hworded : options.Worded := by
    refine ⟨by decide +kernel, ?_, ?_⟩
    · rintro p ⟨⟩
      decide +kernel
    · rintro p ⟨⟩
      decide +kernel
  have hwritten : options.Written (flat (options.size ::
      (options.advance.toList ++ options.function.toList)).reverse) :=
    ⟨⟨_, List.reverse_perm _, rfl⟩, by decide +kernel⟩
  have hread := (window_language reversed (options.window (token backwards .word 7 8))).1 _ _ rfl
    rfl options hworded hwritten
  rw [hread]
  exact congrArg Except.ok (by decide +kernel)

open Sample in
/-- A size may stand between the word and the value of an advance. -/
theorem size_parts_advance :
    (Group.ofTokens (Lexer.tokens parted)).toOption.map (·.children) = some [clause.toNode] ∧
      read clause = .ok ⟨"t", "1h", "2m", none⟩ ∧
      ¬ ∃ field nodes, clause.children = field :: nodes ∧
        ∃ o : Options, o.Worded ∧ o.Written nodes := by
  refine ⟨by decide +kernel, eq_ok_of_toOption (by decide +kernel), ?_⟩
  rintro ⟨field, nodes, hchildren, o, hworded, ⟨pairs, hperm, rfl⟩, -⟩
  have hflat := (List.cons.inj hchildren).2
  have hmem : o.size ∈ pairs := hperm.symm.subset List.mem_cons_self
  have hby := hworded.size.1
  -- Four nodes are two pairs, and neither of them starts with `by`.
  rcases pairs with _ | ⟨⟨a, b⟩, _ | ⟨⟨c, d⟩, _ | ⟨p, pairs⟩⟩⟩
  · cases hflat
  · cases hflat
  · cases hflat
    simp only [List.mem_cons, List.not_mem_nil, or_false] at hmem
    rcases hmem with hsize | hsize
    · rw [hsize] at hby
      cases hby
    · rw [hsize] at hby
      cases hby
  · cases hflat

end PipeQuery.WindowClause
