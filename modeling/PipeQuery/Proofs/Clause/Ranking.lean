import Mathlib.Data.Finset.Card
import Mathlib.Data.List.Induction
import PipeQuery.Proofs.Column.Readable

/-!
The order of the fields in a `sort` clause. The order of a field is the number of different fields
before its last mention. This is a ranking by last mentions as long as each field is named once, but
not for all repetitions: a field that is named twice in a row ties with the next new field.
-/
namespace PipeQuery

namespace SortClause

/-- The names have the last mention of `f` before the last mention of `g`. -/
structure LastMentions (names front : List String) (f : String) (middle : List String) (g : String)
    (back : List String) : Prop where
  split : names = front ++ f :: (middle ++ g :: back)
  last : f ∉ middle ++ g :: back
  last' : g ∉ back

/-- The orders rank the fields: different fields have different orders, which rise with the last
mentions. -/
structure Ranks (sorts : Bindings SortKey) (names : List String) : Prop where
  apart : ∀ f ∈ names, ∀ g ∈ names, f ≠ g →
    (sorts.get? f).map (·.order) ≠ (sorts.get? g).map (·.order)
  rising : ∀ front f middle g back, LastMentions names front f middle g back →
    ∃ k k', sorts.get? f = some k ∧ sorts.get? g = some k' ∧ k.order < k'.order

/-- From the last mention of a field on and before the last mention of another one, some field is
named for the first time. -/
def Renews (names : List String) : Prop :=
  ∀ front f middle g back, LastMentions names front f middle g back → ∃ n ∈ f :: middle, n ∉ front

section
variable {names : List String}

private theorem exists_last {f : String} (h : f ∈ names) :
    ∃ front back, names = front ++ f :: back ∧ f ∉ back := by
  induction names with
  | nil => cases h
  | cons n names ih =>
    by_cases hf : f ∈ names
    · obtain ⟨front, back, rfl, hback⟩ := ih hf
      exact ⟨n :: front, back, rfl, hback⟩
    · cases (List.mem_cons.mp h).resolve_right hf
      exact ⟨[], names, rfl, hf⟩

/-- Of two different fields one has its last mention before the other. -/
theorem exists_lastMentions {f g : String} (hf : f ∈ names) (hg : g ∈ names) (hne : f ≠ g) :
    ∃ front middle back, LastMentions names front f middle g back ∨
      LastMentions names front g middle f back := by
  obtain ⟨front, back, rfl, hback⟩ := exists_last hf
  by_cases hmem : g ∈ back
  · obtain ⟨middle, back, rfl, hg'⟩ := exists_last hmem
    exact ⟨front, middle, back, .inl ⟨rfl, hback, hg'⟩⟩
  · have hfront : g ∈ front := by
      simpa [Ne.symm hne, hmem] using hg
    obtain ⟨front, middle, rfl, hg'⟩ := exists_last hfront
    refine ⟨front, middle, back, .inr ⟨by simp, ?_, hback⟩⟩
    simp [hg', Ne.symm hne, hmem]

private theorem toFinset_subset_append (front more : List String) :
    front.toFinset ⊆ (front ++ more).toFinset := by
  rw [List.toFinset_append]
  exact Finset.subset_union_left

private theorem card_le_card_append (front more : List String) :
    front.toFinset.card ≤ (front ++ more).toFinset.card :=
  Finset.card_le_card (toFinset_subset_append front more)

/-- A list that goes on has more different names exactly if it goes on with a new one. -/
theorem card_lt_card_append_iff (front more : List String) :
    front.toFinset.card < (front ++ more).toFinset.card ↔ ∃ n ∈ more, n ∉ front := by
  constructor
  · intro hlt
    by_contra hnone
    have hle : (front ++ more).toFinset ⊆ front.toFinset := by
      intro n hn
      rw [List.mem_toFinset] at hn ⊢
      rcases List.mem_append.mp hn with hn | hn
      · exact hn
      · by_contra hnew
        exact hnone ⟨n, hn, hnew⟩
    exact absurd (Finset.card_le_card hle) (Nat.not_le.mpr hlt)
  · rintro ⟨n, hn, hnew⟩
    refine Finset.card_lt_card ⟨toFinset_subset_append front more, fun hle => hnew ?_⟩
    have hmem : n ∈ (front ++ more).toFinset := List.mem_toFinset.mpr (List.mem_append_right _ hn)
    exact List.mem_toFinset.mp (hle hmem)

/-- Names that are all different are all new. -/
theorem renews_of_nodup (h : names.Nodup) : Renews names := by
  rintro front f middle g back ⟨rfl, -, -⟩
  refine ⟨f, List.mem_cons_self, fun hf => ?_⟩
  exact List.disjoint_of_nodup_append h hf List.mem_cons_self

end

end SortClause

namespace Draft

private theorem addSorts_append (d : Draft) (keys keys' : List (String × SortDirection)) :
    d.addSorts (keys ++ keys') = (d.addSorts keys).addSorts keys' := by
  rw [addSorts, List.foldl_append]
  rfl

/-- Sorting by other fields leaves the order of a field alone. -/
theorem get?_addSorts_of_notMem {keys : List (String × SortDirection)} {field : String}
    (h : field ∉ keys.map (·.1)) (d : Draft) :
    (d.addSorts keys).sorts.get? field = d.sorts.get? field := by
  induction keys generalizing d with
  | nil => rfl
  | cons key keys ih =>
    rw [List.map_cons, List.mem_cons, not_or] at h
    have hone : (d.addSort key.1 key.2).sorts.get? field = d.sorts.get? field := by
      rw [addSort, Bindings.get?_insert, if_neg h.1]
    exact (ih h.2 (d.addSort key.1 key.2)).trans hone

/-- The names with an order are those that are mentioned, each counted once. -/
theorem sorts_addSorts {d : Draft} (hd : d.sorts = {}) (keys : List (String × SortDirection)) :
    (∀ n, ((d.addSorts keys).sorts.get? n).isSome ↔ n ∈ keys.map (·.1)) ∧
      (d.addSorts keys).sorts.size = (keys.map (·.1)).toFinset.card := by
  -- By the last key: it is put in after all others.
  induction keys using List.reverseRecOn with
  | nil =>
    have hnone : (d.addSorts []).sorts = {} := hd
    rw [hnone]
    exact ⟨fun n => by simp [Bindings.get?], rfl⟩
  | append_singleton keys key ih =>
    obtain ⟨hnamed, hsize⟩ := ih
    have hsorts : (d.addSorts (keys ++ [key])).sorts = (d.addSorts keys).sorts.insert key.1
        ⟨UInt32.ofNat (d.addSorts keys).sorts.size, key.2⟩ := by
      rw [addSorts_append]
      rfl
    rw [hsorts, List.map_append, List.map_singleton]
    constructor
    · intro n
      rw [Bindings.get?_insert]
      by_cases hn : n = key.1
      · simp [hn]
      · rw [if_neg hn, hnamed]
        simp [hn]
    · have hset : (keys.map (·.1) ++ [key.1]).toFinset =
          insert key.1 (keys.map (·.1)).toFinset := by
        ext n
        simp
      rw [Bindings.size_insert, hset, hsize]
      by_cases hmem : key.1 ∈ keys.map (·.1)
      · rw [if_pos ((hnamed _).mpr hmem), Finset.card_insert_of_mem (List.mem_toFinset.mpr hmem)]
      · rw [if_neg fun hsome => hmem ((hnamed _).mp hsome),
          Finset.card_insert_of_notMem fun hin => hmem (List.mem_toFinset.mp hin)]

/-- The order of a field is the number of different fields before its last mention. -/
theorem get?_addSorts {d : Draft} (hd : d.sorts = {}) {front back : List (String × SortDirection)}
    {field : String} (direction : SortDirection) (hlast : field ∉ back.map (·.1)) :
    (d.addSorts (front ++ (field, direction) :: back)).sorts.get? field =
      some ⟨UInt32.ofNat (front.map (·.1)).toFinset.card, direction⟩ := by
  have hsplit : d.addSorts (front ++ (field, direction) :: back) =
      ((d.addSorts front).addSort field direction).addSorts back := by
    rw [addSorts_append]
    rfl
  rw [hsplit, get?_addSorts_of_notMem hlast, addSort, Bindings.get?_insert, if_pos rfl,
    (sorts_addSorts hd front).2]

section
open SortClause
variable {d : Draft} {keys : List (String × SortDirection)} {front middle back : List String}
  {f g : String}

/-- The orders of two fields, by the names before their last mentions. -/
theorem orders_of_lastMentions (hd : d.sorts = {})
    (h : LastMentions (keys.map (·.1)) front f middle g back) :
    ∃ x y, (d.addSorts keys).sorts.get? f = some ⟨UInt32.ofNat front.toFinset.card, x⟩ ∧
      (d.addSorts keys).sorts.get? g =
        some ⟨UInt32.ofNat (front ++ f :: middle).toFinset.card, y⟩ := by
  obtain ⟨front, keys₁, rfl, rfl, h₁⟩ := List.map_eq_append_iff.mp h.split
  obtain ⟨⟨f, x⟩, keys₂, rfl, rfl, h₂⟩ := List.map_eq_cons_iff.mp h₁
  obtain ⟨middle, keys₃, rfl, rfl, h₃⟩ := List.map_eq_append_iff.mp h₂
  obtain ⟨⟨g, y⟩, back, rfl, rfl, rfl⟩ := List.map_eq_cons_iff.mp h₃
  refine ⟨x, y, get?_addSorts hd x (by simpa using h.last), ?_⟩
  have hsplit : front ++ (f, x) :: (middle ++ (g, y) :: back) =
      (front ++ (f, x) :: middle) ++ (g, y) :: back := by simp
  rw [hsplit, get?_addSorts hd y h.last']
  simp

/-- The first of two last mentions has the lower order exactly if a field is new before the second
one. -/
theorem order_lt_iff (hd : d.sorts = {}) (hcount : (keys.map (·.1)).toFinset.card < UInt32.size)
    (h : LastMentions (keys.map (·.1)) front f middle g back) :
    (∃ k k', (d.addSorts keys).sorts.get? f = some k ∧ (d.addSorts keys).sorts.get? g = some k' ∧
      k.order < k'.order) ↔ ∃ n ∈ f :: middle, n ∉ front := by
  obtain ⟨x, y, hf, hg⟩ := orders_of_lastMentions hd h
  have hsplit : keys.map (·.1) = front ++ f :: middle ++ g :: back := by
    rw [h.split, List.append_assoc, List.cons_append]
  have hboth : (front ++ f :: middle).toFinset.card < UInt32.size := by
    rw [hsplit] at hcount
    exact Nat.lt_of_le_of_lt (card_le_card_append _ _) hcount
  have hfront : front.toFinset.card < UInt32.size :=
    Nat.lt_of_le_of_lt (card_le_card_append _ _) hboth
  have hlt : UInt32.ofNat front.toFinset.card < UInt32.ofNat (front ++ f :: middle).toFinset.card ↔
      ∃ n ∈ f :: middle, n ∉ front := by
    rw [← card_lt_card_append_iff, UInt32.lt_iff_toNat_lt, UInt32.toNat_ofNat_of_lt' hfront,
      UInt32.toNat_ofNat_of_lt' hboth]
  rw [← hlt]
  constructor
  · rintro ⟨k, k', hk, hk', horder⟩
    cases hf.symm.trans hk
    cases hg.symm.trans hk'
    exact horder
  · exact fun horder => ⟨_, _, hf, hg, horder⟩

private theorem ranks_addSorts_iff (hd : d.sorts = {})
    (hcount : (keys.map (·.1)).toFinset.card < UInt32.size) :
    Ranks (d.addSorts keys).sorts (keys.map (·.1)) ↔ Renews (keys.map (·.1)) := by
  constructor
  · intro hranks front f middle g back h
    exact (order_lt_iff hd hcount h).mp (hranks.rising front f middle g back h)
  · intro hrenews
    have hrising {front f middle g back} (h : LastMentions (keys.map (·.1)) front f middle g back) :=
      (order_lt_iff hd hcount h).mpr (hrenews front f middle g back h)
    have hapart {front f middle g back} (h : LastMentions (keys.map (·.1)) front f middle g back) :
        ((d.addSorts keys).sorts.get? f).map (·.order) ≠
          ((d.addSorts keys).sorts.get? g).map (·.order) := by
      obtain ⟨k, k', hk, hk', hlt⟩ := hrising h
      rw [hk, hk']
      exact fun heq => UInt32.ne_of_lt hlt (Option.some.inj heq)
    refine ⟨?_, fun front f middle g back => hrising⟩
    intro f hf g hg hne
    obtain ⟨front, middle, back, h | h⟩ := exists_lastMentions hf hg hne
    · exact hapart h
    · exact (hapart h).symm

end

/-- The order at the end of a walk is the one that its `sort` gives. -/
theorem sorts_ofRoot {ctx : Context} {root g : Group} {d : Draft} (h : ofRoot ctx root = .ok d)
    (hg : g.toNode ∈ root.children) (hsort : g.Starts .sort) :
    ∃ keys, SortClause.read g = .ok keys ∧ d.sorts = (addSorts {} keys).sorts := by
  obtain ⟨extensions, hentry⟩ := exists_entry hg hsort
  obtain ⟨d₀, d₁, turn⟩ := exists_turn h hentry hsort
  obtain ⟨place, hclause⟩ := turn.reads
  obtain ⟨keys, hkeys, hd₁⟩ := bind_eq_ok.mp (readAlone_eq_ok_iff.mp hclause).1
  cases hd₁
  have hnone : d₀.sorts = {} := turn.part_before owns_sorts (by decide)
  refine ⟨keys, hkeys, ?_⟩
  rw [turn.part_after owns_sorts (by decide), addSorts_eq, hnone]

end Draft

/-- The fields of a `sort` clause get as their order the number of different fields before their
last mention, and the selected columns of a query have it by the field that they are for. As long as
there are not too many fields to count, this ranks the fields by their last mentions exactly if there
is a new field from each last mention to the next; so it does if no field is named twice. -/
theorem sort_ranks_iff {ctx : Context} {text : String} {request : SearchRequest} {root g : Group}
    (h : compile ctx text = .ok request) (hroot : rootOf text = .ok root)
    (hg : g.toNode ∈ root.children) (hsort : g.Starts .sort) :
    ∃ d keys table selected, Draft.ofRoot ctx root = .ok d ∧ SortClause.read g = .ok keys ∧
      request.table? = some table ∧ selected <+: table.columns ∧
      (∀ front field direction back, keys = front ++ (field, direction) :: back →
        field ∉ back.map (·.1) → d.sorts.get? field =
          some ⟨UInt32.ofNat (front.map (·.1)).toFinset.card, direction⟩) ∧
      (∀ g' : Group, g'.toNode ∈ root.children → g'.Starts .select →
        List.Forall₂ (fun a c => c.sort = d.sorts.get? a.key)
          ((d.selections ctx g').flatMap (d.asked ctx)) selected) ∧
      ((keys.map (·.1)).toFinset.card < UInt32.size →
        (SortClause.Ranks d.sorts (keys.map (·.1)) ↔ SortClause.Renews (keys.map (·.1))) ∧
        ((keys.map (·.1)).Nodup → SortClause.Ranks d.sorts (keys.map (·.1)))) := by
  obtain ⟨root', hroot', hcompile⟩ := bind_eq_ok.mp h
  cases (Result.ofExcept_eq_ok.mp hroot').symm.trans hroot
  obtain ⟨d, hd, hfinish⟩ := bind_eq_ok.mp hcompile
  obtain ⟨table, back, hidden, -, htable, hcolumns, -⟩ :=
    Draft.columns_finish (Result.ofExcept_eq_ok.mp hfinish)
  obtain ⟨keys, hkeys, hsorts⟩ := Draft.sorts_ofRoot hd hg hsort
  refine ⟨d, keys, table, d.table.columns, hd, hkeys, htable, ?_, ?_, ?_, ?_⟩
  · rw [hcolumns, List.append_assoc]
    exact List.prefix_append _ _
  · rintro front field direction back rfl hlast
    rw [hsorts, Draft.get?_addSorts rfl direction hlast]
  · intro g' hg' hselect
    refine (Draft.selected_ofRoot hd hg' hselect).1.imp ?_
    rintro a c ⟨id, e, -, rfl⟩
    rfl
  · intro hcount
    rw [hsorts]
    have hiff := Draft.ranks_addSorts_iff (d := {}) rfl hcount
    exact ⟨hiff, fun hnodup => hiff.mpr (SortClause.renews_of_nodup hnodup)⟩

namespace SortClause.Sample

def query : String := "from a sort by b,b,c select b,c"

def token (kind : TokenKind) (start stop : Nat) : Node := .token ⟨kind, query, ⟨start, stop⟩⟩

def clause : Group :=
  ⟨.clause ⟨.clause .sort, query, ⟨7, 11⟩⟩, query, ⟨7, 20⟩,
    [token .byWord 12 14, token .word 15 16, token .comma 16 17, token .word 17 18, token .comma 18 19,
      token .word 19 20]⟩

def keys : List (String × SortDirection) := [("b", .ascending), ("b", .ascending), ("c", .ascending)]

private theorem not_renews_keys : ¬ Renews (keys.map (·.1)) := by
  intro h
  obtain ⟨n, hn, hnew⟩ := h ["b"] "b" [] "c" [] ⟨rfl, by decide, by decide⟩
  exact hnew hn

end SortClause.Sample

open SortClause.Sample in
theorem sort_ranks_iff_sample :
    ∃ request root d, compile .sample query = .ok request ∧ rootOf query = .ok root ∧
      clause.toNode ∈ root.children ∧ Draft.ofRoot .sample root = .ok d ∧
      SortClause.read clause = .ok keys ∧ d.sorts.get? "b" = some ⟨1, .ascending⟩ ∧
      d.sorts.get? "c" = some ⟨1, .ascending⟩ ∧ ¬ SortClause.Ranks d.sorts (keys.map (·.1)) := by
  have hok : (compile .sample query).isOk = true := by decide +kernel
  have hclause : (rootOf query).toOption.map (fun root => root.children.contains clause.toNode) =
      some true := by decide +kernel
  have hkeys : SortClause.read clause = .ok keys := eq_ok_of_toOption (by decide +kernel)
  obtain ⟨request, h⟩ := exists_eq_ok_of_isOk hok
  obtain ⟨root, hroot, hmem⟩ := Option.map_eq_some_iff.mp hclause
  have hroot := eq_ok_of_toOption hroot
  have hmem : clause.toNode ∈ root.children := List.contains_iff_mem.mp hmem
  obtain ⟨d, keys', table, selected, hd, hkeys', -, -, horder, -, hranks⟩ :=
    sort_ranks_iff h hroot hmem (.keyword _ rfl rfl)
  cases hkeys.symm.trans hkeys'
  refine ⟨request, root, d, h, hroot, hmem, hd, hkeys, ?_, ?_, ?_⟩
  · exact horder [("b", .ascending)] "b" .ascending [("c", .ascending)] rfl (by decide)
  · exact horder [("b", .ascending), ("b", .ascending)] "c" .ascending [] rfl (by decide)
  · exact fun h => not_renews_keys ((hranks (by decide)).1.mp h)

open SortClause.Sample in
/-- A field that is named twice in a row ties with the field after it. -/
theorem repeated_field_ties :
    ((compile .sample query).toOption.bind (·.table?)).map (fun table =>
      (table.columns.take 2).map fun c => (c.name, c.sort)) =
        some [("b", some ⟨1, .ascending⟩), ("c", some ⟨1, .ascending⟩)] ∧
      ¬SortClause.Renews ["b", "b", "c"] :=
  ⟨by decide +kernel, not_renews_keys⟩

end PipeQuery
