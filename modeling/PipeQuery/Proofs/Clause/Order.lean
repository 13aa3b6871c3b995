import Mathlib.Data.List.Induction
import PipeQuery.Proofs.Draft.Walk

/-!
The language of clause orders. The table of rules is pairwise; along a list it comes to a `from` at
the start, ranks that never fall, and no repetition of any clause but `eval` and `group`.
-/
namespace PipeQuery

namespace Clause

def rank : Clause → Nat
  | .source => 0
  | .restrict => 1
  | .eval | .window => 2
  | .filter => 3
  | .sort | .group | .having => 4
  | .select => 5
  | .limit => 6
  | .present => 7

structure InOrder (clauses : List Clause) : Prop where
  first : clauses = [] ∨ clauses.head? = some .source
  ranked : clauses.Pairwise (·.rank ≤ ·.rank)
  once : ∀ c, c ≠ .eval → c ≠ .group → clauses.count c ≤ 1

/-- The table of rules: a clause may stand after another of at most its rank, and after itself only
if it may be repeated. -/
theorem mem_validAfter_iff (c seen : Clause) :
    seen ∈ c.validAfter ↔ seen.rank ≤ c.rank ∧ (seen = c → c = .eval ∨ c = .group) := by
  cases c <;> cases seen <;> decide

private theorem conflicts_eq_nil_iff (c : Clause) (consumed : List Clause) :
    c.conflicts consumed = [] ↔ ∀ seen ∈ consumed, seen ∈ c.validAfter := by
  have hfold (found : List Clause) : consumed.foldl (fun found seen =>
      if c.validAfter.contains seen || found.contains seen then found else found ++ [seen]) found
        = [] ↔ found = [] ∧ ∀ seen ∈ consumed, seen ∈ c.validAfter := by
    induction consumed generalizing found with
    | nil => simp
    | cons seen consumed ih =>
      rw [List.foldl_cons, ih]
      split
      next h =>
        constructor
        · rintro ⟨rfl, hrest⟩
          exact ⟨rfl, by simpa using ⟨by simpa using h, hrest⟩⟩
        · rintro ⟨rfl, hrest⟩
          exact ⟨rfl, fun s hs => hrest s (List.mem_cons_of_mem _ hs)⟩
      next h =>
        constructor
        · rintro ⟨hnil, -⟩
          simp at hnil
        · rintro ⟨rfl, hrest⟩
          exact absurd (hrest seen List.mem_cons_self) (by simpa using h)
  simpa [conflicts] using hfold []

theorem checkOrder_eq_ok_iff (place : Place) (c : Clause) (consumed : List Clause) :
    checkOrder place c consumed = .ok () ↔
      (c = .source ∨ .source ∈ consumed) ∧ ∀ seen ∈ consumed, seen ∈ c.validAfter := by
  rw [← conflicts_eq_nil_iff, checkOrder, orderFault?]
  by_cases hsource : c ≠ .source ∧ !consumed.contains .source
  · rw [if_pos hsource]
    simp_all
  · rw [if_neg hsource]
    have hfirst : c = .source ∨ .source ∈ consumed := by
      by_contra hne
      exact hsource (by simpa using hne)
    cases c.conflicts consumed with
    | nil => simp [hfirst]
    | cons seen found => simp

/-- The check looks at which clauses came before, not at their order. -/
theorem checkOrder_perm (place place' : Place) (c : Clause) {consumed consumed' : List Clause}
    (h : consumed.Perm consumed') :
    checkOrder place c consumed = .ok () ↔ checkOrder place' c consumed' = .ok () := by
  simp only [checkOrder_eq_ok_iff, h.mem_iff]

private theorem inOrder_nil : InOrder [] := ⟨.inl rfl, .nil, by simp⟩

/-- One step of the order: a clause can be put after a list in order exactly if the check lets it
pass. -/
theorem inOrder_concat_iff (place : Place) (front : List Clause) (c : Clause) :
    InOrder (front ++ [c]) ↔ InOrder front ∧ checkOrder place c front = .ok () := by
  rw [checkOrder_eq_ok_iff]
  constructor
  · rintro ⟨hfirst, hranked, honce⟩
    rw [List.pairwise_append] at hranked
    obtain ⟨hfront, -, hlast⟩ := hranked
    have hhead : (front ++ [c]).head? = some .source := by simpa using hfirst
    refine ⟨⟨?_, hfront, ?_⟩, ?_, ?_⟩
    · cases front with
      | nil => exact .inl rfl
      | cons a as => exact .inr hhead
    · intro x hx hx'
      have hcount := honce x hx hx'
      rw [List.count_append] at hcount
      omega
    · cases front with
      | nil => exact .inl (by simpa using hhead)
      | cons a as => exact .inr (by simp_all)
    · intro seen hseen
      rw [mem_validAfter_iff]
      refine ⟨hlast seen hseen c (by simp), ?_⟩
      rintro rfl
      -- A clause that is there twice is one of those that may be.
      by_contra hne
      have hcount := honce seen (fun h => hne (.inl h)) (fun h => hne (.inr h))
      have hpos : 0 < front.count seen := List.count_pos_iff.mpr hseen
      simp [List.count_append] at hcount
      omega
  · rintro ⟨⟨hfirst, hranked, honce⟩, hsource, hvalid⟩
    simp only [mem_validAfter_iff] at hvalid
    refine ⟨.inr ?_, ?_, ?_⟩
    · rcases hfirst with rfl | hhead
      · simpa using hsource
      · simp [hhead]
    · rw [List.pairwise_append]
      refine ⟨hranked, List.pairwise_singleton _ _, ?_⟩
      intro seen hseen b hb
      cases List.mem_singleton.mp hb
      exact (hvalid seen hseen).1
    · intro x hx hx'
      rw [List.count_append]
      by_cases hxc : x = c
      · subst hxc
        have hnot : x ∉ front := fun hm => ((hvalid x hm).2 rfl).elim hx hx'
        simp [List.count_eq_zero.mpr hnot]
      · have hzero : List.count x [c] = 0 := by simp [Ne.symm hxc]
        rw [hzero]
        exact honce x hx hx'

/-- Checking the clauses one after the other accepts exactly the lists in order. -/
theorem checks_iff_inOrder (place : Place) (clauses : List Clause) :
    (∀ front c back, clauses = front ++ c :: back → checkOrder place c front = .ok ()) ↔
      InOrder clauses := by
  induction clauses using List.reverseRecOn with
  | nil => simp [inOrder_nil]
  | append_singleton clauses last ih =>
    rw [inOrder_concat_iff place, ← ih]
    constructor
    · intro h
      refine ⟨?_, h clauses last [] rfl⟩
      rintro front c back rfl
      exact h front c (back ++ [last]) (by simp)
    · rintro ⟨hfront, hlast⟩ front c back heq
      cases back using List.reverseRecOn with
      | nil =>
        obtain ⟨rfl, hc⟩ := List.append_inj' heq rfl
        cases hc
        exact hlast
      | append_singleton back b =>
        rw [← List.cons_append, ← List.append_assoc] at heq
        exact hfront front c back (List.append_inj' heq rfl).1

end Clause

def Node.clause (n : Node) : Except SyntaxError Clause := n.clauseGroup.map (·.clause)

namespace Draft
variable {ctx : Context}

/-- A walk notes the clauses of its nodes, and keeps them in order. -/
theorem consumed_readEntries {entries : List (Node × List Extension)} {d d' : Draft}
    (h : readEntries ctx d entries = .ok d') (hd : Clause.InOrder d.consumed) :
    ∃ clauses, (entries.map (·.1)).mapM Node.clause = .ok clauses ∧
      d'.consumed = d.consumed ++ clauses ∧ Clause.InOrder d'.consumed := by
  induction entries generalizing d with
  | nil =>
    cases h
    exact ⟨[], rfl, (List.append_nil _).symm, hd⟩
  | cons entry entries ih =>
    obtain ⟨d₁, hentry, hrest⟩ := bind_eq_ok.mp h
    obtain ⟨c, d₂, hc, horder, -, rfl⟩ := readEntry_eq_ok hentry
    have hnext := (Clause.inOrder_concat_iff c.place d.consumed c.clause).mpr ⟨hd, horder⟩
    obtain ⟨clauses, hclauses, hconsumed, hin⟩ := ih hrest hnext
    refine ⟨c.clause :: clauses, ?_, ?_, hin⟩
    · rw [List.map_cons, List.mapM_cons, Node.clause, hc, hclauses]
      rfl
    · rw [hconsumed, List.append_assoc, List.singleton_append]

private theorem clauses_ofRoot {root : Group} {d : Draft} (h : ofRoot ctx root = .ok d) :
    ∃ clauses, (root.children.filter (·.extension?.isNone)).mapM Node.clause = .ok clauses ∧
      Clause.InOrder clauses := by
  rw [ofRoot] at h
  split at h
  next => cases h
  next entries hattach =>
    obtain ⟨clauses, hclauses, hconsumed, hin⟩ := consumed_readEntries h Clause.inOrder_nil
    have hentries : entries.map (·.1) = _ := hattach ▸ entries_attachExtensions root.children
    rw [hentries] at hclauses
    rw [hconsumed, List.nil_append] at hin
    exact ⟨clauses, hclauses, hin⟩

end Draft

/-- The order check, made for each clause against all those before it, accepts exactly the lists of
clauses that are empty or start with `from`, whose ranks never fall, and in which only `eval` and
`group` occur more than once. The clauses of every query that compiles are such a list; connective
pipes are no clauses of their own. -/
theorem clause_order_language :
    (∀ (place : Place) (clauses : List Clause),
      (∀ front c back, clauses = front ++ c :: back → Clause.checkOrder place c front = .ok ()) ↔
        Clause.InOrder clauses) ∧
    ∀ (ctx : Context) (text : String) (request : SearchRequest), compile ctx text = .ok request →
      ∃ root clauses, rootOf text = .ok root ∧
        (root.children.filter (·.extension?.isNone)).mapM Node.clause = .ok clauses ∧
        Clause.InOrder clauses := by
  refine ⟨Clause.checks_iff_inOrder, ?_⟩
  intro ctx text request h
  obtain ⟨root, hroot, hcompile⟩ := bind_eq_ok.mp h
  obtain ⟨d, hd, -⟩ := bind_eq_ok.mp hcompile
  obtain ⟨clauses, hclauses, hin⟩ := Draft.clauses_ofRoot hd
  exact ⟨root, clauses, Result.ofExcept_eq_ok.mp hroot, hclauses, hin⟩

namespace Clause.Sample

def query : String := "from a where b=1|or c=2|eval d=1"

end Clause.Sample

open Clause.Sample in
theorem clause_order_language_sample :
    (compile .sample query).isOk ∧ ∃ root, rootOf query = .ok root ∧
      (root.children.filter (·.extension?.isNone)).mapM Node.clause =
        .ok [.source, .restrict, .eval] ∧
      Clause.InOrder [.source, .restrict, .eval] := by
  have hok : (compile .sample query).isOk = true := by decide +kernel
  have hclauses : ((rootOf query).toOption.bind fun root =>
      ((root.children.filter (·.extension?.isNone)).mapM Node.clause).toOption) =
        some [.source, .restrict, .eval] := by decide +kernel
  refine ⟨hok, ?_⟩
  cases h : compile .sample query with
  | error e =>
    rw [h] at hok
    cases hok
  | ok request =>
    obtain ⟨root, clauses, hroot, hmap, hin⟩ := clause_order_language.2 .sample query request h
    simp only [hroot, hmap, Except.toOption, Option.bind_some, Option.some.injEq] at hclauses
    exact ⟨root, hroot, hclauses ▸ hmap, hclauses ▸ hin⟩

end PipeQuery
