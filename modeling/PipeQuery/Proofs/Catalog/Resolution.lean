import Mathlib.Data.List.Nodup
import PipeQuery.Catalog

/-!
What a name stands for does not hang on the order of a catalog. The rules for names are stated once
over the documents that there are, without an order, and they leave no choice when identifiers
differ. The scans that look a name up follow these rules.
-/
namespace PipeQuery

/-- The document is the only candidate with the name, up to ASCII case. -/
structure DocRef.OnlyNamed (candidates : List DocRef) (name : String) (d : DocRef) : Prop where
  mem : d ∈ candidates
  named : Text.sameIgnoringCase d.name name
  count : candidates.countP (Text.sameIgnoringCase ·.name name) = 1

open DocRef

/-- The rules for names: an identifier comes before any name, and a name has to be the only one. -/
inductive Resolves (candidates : List DocRef) (type name : String) :
    Except ResolveError DocRef → Prop where
  | identified {d : DocRef} (mem : d ∈ candidates) (uuid : d.uuid = name) :
      Resolves candidates type name (.ok d)
  | named {d : DocRef} (unidentified : ∀ e ∈ candidates, e.uuid ≠ name)
      (only : OnlyNamed candidates name d) : Resolves candidates type name (.ok d)
  | missing (unidentified : ∀ e ∈ candidates, e.uuid ≠ name)
      (count : candidates.countP (Text.sameIgnoringCase ·.name name) = 0) :
      Resolves candidates type name (.error (.notFound type name))
  | several (unidentified : ∀ e ∈ candidates, e.uuid ≠ name)
      (count : 2 ≤ candidates.countP (Text.sameIgnoringCase ·.name name)) :
      Resolves candidates type name (.error (.ambiguous type name))

section
variable {candidates others : List DocRef} {type name : String}

private theorem resolves_resolveIn (candidates : List DocRef) (type name : String) :
    Resolves candidates type name (resolveIn candidates type name) := by
  rw [resolveIn]
  split
  next d hfind =>
    have huuid := List.find?_some hfind
    exact .identified (List.mem_of_find?_eq_some hfind) (beq_iff_eq.mp huuid)
  next hfind =>
    have hunidentified : ∀ e ∈ candidates, e.uuid ≠ name := by
      intro e he huuid
      exact List.find?_eq_none.mp hfind e he (beq_iff_eq.mpr huuid)
    have hcount := List.countP_eq_length_filter (p := (Text.sameIgnoringCase ·.name name))
      (l := candidates)
    split
    next d hfilter =>
      have hd : d ∈ candidates.filter (Text.sameIgnoringCase ·.name name) := by simp [hfilter]
      obtain ⟨hmem, hnamed⟩ := List.mem_filter.mp hd
      exact .named hunidentified ⟨hmem, hnamed, by rw [hcount, hfilter]; rfl⟩
    next hfilter => exact .missing hunidentified (by rw [hcount, hfilter]; rfl)
    next hone hnone =>
      refine .several hunidentified ?_
      rw [hcount]
      generalize candidates.filter (Text.sameIgnoringCase ·.name name) = found at hone hnone
      cases found with
      | nil => exact absurd rfl hnone
      | cons d found =>
        cases found with
        | nil => exact absurd rfl (hone d)
        | cons e found => simp

theorem DocRef.OnlyNamed.unique {d e : DocRef} (hd : OnlyNamed candidates name d)
    (he : OnlyNamed candidates name e) : d = e := by
  have hcount := hd.count
  rw [List.countP_eq_length_filter, List.length_eq_one_iff] at hcount
  obtain ⟨f, hf⟩ := hcount
  have hmem {x : DocRef} (hx : OnlyNamed candidates name x) : x = f := by
    rw [← List.mem_singleton, ← hf]
    exact List.mem_filter.mpr ⟨hx.mem, hx.named⟩
  rw [hmem hd, hmem he]

/-- With different identifiers the rules leave no choice. -/
theorem Resolves.unique (hdistinct : (candidates.map (·.uuid)).Nodup)
    {r r' : Except ResolveError DocRef} (h : Resolves candidates type name r)
    (h' : Resolves candidates type name r') : r = r' := by
  cases h with
  | identified mem uuid =>
    cases h' with
    | identified mem' uuid' =>
      rw [List.inj_on_of_nodup_map hdistinct mem mem' (uuid.trans uuid'.symm)]
    | named unidentified _ | missing unidentified _ | several unidentified _ =>
      exact absurd uuid (unidentified _ mem)
  | named unidentified only =>
    cases h' with
    | identified mem uuid => exact absurd uuid (unidentified _ mem)
    | named _ only' => rw [only.unique only']
    | missing _ count => exact absurd (only.count.symm.trans count) (by decide)
    | several _ count => exact absurd (only.count ▸ count) (by decide)
  | missing unidentified count =>
    cases h' with
    | identified mem uuid => exact absurd uuid (unidentified _ mem)
    | named _ only => exact absurd (count.symm.trans only.count) (by decide)
    | missing _ _ => rfl
    | several _ count' => exact absurd (count ▸ count') (by decide)
  | several unidentified count =>
    cases h' with
    | identified mem uuid => exact absurd uuid (unidentified _ mem)
    | named _ only => exact absurd (only.count ▸ count) (by decide)
    | missing _ count' => exact absurd (count' ▸ count) (by decide)
    | several _ _ => rfl

/-- The rules speak of the candidates that there are, not of their order. -/
theorem Resolves.perm {r : Except ResolveError DocRef} (h : Resolves candidates type name r)
    (hperm : others.Perm candidates) : Resolves others type name r := by
  have hcount := hperm.countP_eq (Text.sameIgnoringCase ·.name name)
  have hunidentified (h : ∀ e ∈ candidates, e.uuid ≠ name) : ∀ e ∈ others, e.uuid ≠ name :=
    fun e he => h e (hperm.mem_iff.mp he)
  cases h with
  | identified mem uuid => exact .identified (hperm.mem_iff.mpr mem) uuid
  | named unidentified only =>
    exact .named (hunidentified unidentified)
      ⟨hperm.mem_iff.mpr only.mem, only.named, hcount.trans only.count⟩
  | missing unidentified count =>
    exact .missing (hunidentified unidentified) (hcount.trans count)
  | several unidentified count =>
    exact .several (hunidentified unidentified) (hcount ▸ count)

private theorem resolveIn_perm (hdistinct : (candidates.map (·.uuid)).Nodup)
    (hperm : others.Perm candidates) :
    resolveIn others type name = resolveIn candidates type name :=
  ((resolves_resolveIn others type name).perm hperm.symm).unique hdistinct
    (resolves_resolveIn candidates type name)

/-- A document that is found by no identifier is found by its name, and only it has the name. -/
theorem onlyNamed_of_resolveIn {d : DocRef} (h : resolveIn candidates type name = .ok d)
    (hunidentified : ∀ e ∈ candidates, e.uuid ≠ name) : OnlyNamed candidates name d := by
  have hresolves := resolves_resolveIn candidates type name
  rw [h] at hresolves
  cases hresolves with
  | identified mem uuid => exact absurd uuid (hunidentified d mem)
  | named _ only => exact only

end

namespace Catalog

def sources (c : Catalog) : List DocRef := c.dataSources.map (·.docRef)

def documentsOf (c : Catalog) (type : String) : List DocRef := c.documents.filter (·.type == type)

variable {c c' : Catalog} {type : String}

private theorem resolveSource_perm (hdistinct : (c.dataSources.map (·.uuid)).Nodup)
    (hperm : c'.dataSources.Perm c.dataSources) (name : String) :
    c'.resolveSource name = c.resolveSource name := by
  refine resolveIn_perm ?_ (hperm.map _)
  rwa [List.map_map]

/-- Documents of other types are not looked at. -/
theorem documentsOf_perm {others : List DocRef} (hothers : ∀ d ∈ others, d.type ≠ type)
    (hperm : c'.documents.Perm (c.documents ++ others)) :
    (c'.documentsOf type).Perm (c.documentsOf type) := by
  have hnone : others.filter (·.type == type) = [] := by
    rw [List.filter_eq_nil_iff]
    intro d hd htype
    exact hothers d hd (beq_iff_eq.mp htype)
  have hfilter := hperm.filter (·.type == type)
  rwa [List.filter_append, hnone, List.append_nil] at hfilter

private theorem resolveDocument_perm (hdistinct : (c.documents.map (·.uuid)).Nodup)
    {others : List DocRef} (hothers : ∀ d ∈ others, d.type ≠ type)
    (hperm : c'.documents.Perm (c.documents ++ others)) (name : String) :
    c'.resolveDocument type name = c.resolveDocument type name := by
  refine resolveIn_perm ?_ (documentsOf_perm hothers hperm)
  exact hdistinct.sublist (List.filter_sublist.map _)

/-- Names are resolved alike in every order of a catalog whose identifiers differ, documents of
other types make no difference, and what is found by a name is the only document with that name. -/
theorem resolve_order_free (hsources : (c.dataSources.map (·.uuid)).Nodup)
    (hdocuments : (c.documents.map (·.uuid)).Nodup) (type name : String) :
    (∀ c' : Catalog, c'.dataSources.Perm c.dataSources → c'.documents.Perm c.documents →
      c'.resolveSource name = c.resolveSource name ∧
        c'.resolveDocument type name = c.resolveDocument type name) ∧
    (∀ (c' : Catalog) (others : List DocRef), (∀ d ∈ others, d.type ≠ type) →
      c'.documents.Perm (c.documents ++ others) →
        c'.resolveDocument type name = c.resolveDocument type name) ∧
    (∀ d, c.resolveSource name = .ok d → (∀ e ∈ c.sources, e.uuid ≠ name) →
      OnlyNamed c.sources name d) ∧
    ∀ d, c.resolveDocument type name = .ok d → (∀ e ∈ c.documentsOf type, e.uuid ≠ name) →
      OnlyNamed (c.documentsOf type) name d := by
  refine ⟨?_, ?_, ?_, ?_⟩
  · intro c' hperm hperm'
    refine ⟨resolveSource_perm hsources hperm name, ?_⟩
    exact resolveDocument_perm hdocuments (List.forall_mem_nil _)
      (by rwa [List.append_nil]) name
  · intro c' others hothers hperm
    exact resolveDocument_perm hdocuments hothers hperm name
  · intro d hd hunidentified
    exact onlyNamed_of_resolveIn hd hunidentified
  · intro d hd hunidentified
    exact onlyNamed_of_resolveIn hd hunidentified

namespace Sample

/-- The name of one data source is the identifier of another. -/
def twins : Catalog where
  dataSources := [⟨"View", "v", "Twin", []⟩, ⟨"View", "twin", "Shadow", []⟩]
  documents := [⟨"Dictionary", "d", "Feeds"⟩, ⟨"Dictionary", "e", "Users"⟩]

def turned : Catalog where
  dataSources := twins.dataSources.reverse
  documents := ⟨"Pipeline", "p", "feeds"⟩ :: twins.documents.reverse

end Sample

open Sample in
theorem resolve_order_free_sample :
    (twins.dataSources.map (·.uuid)).Nodup ∧ (twins.documents.map (·.uuid)).Nodup ∧
      (∀ name, Catalog.resolveSource ⟨twins.dataSources.reverse, twins.documents⟩ name =
        twins.resolveSource name) ∧
      turned.resolveDocument "Dictionary" "FEEDS" = .ok ⟨"Dictionary", "d", "Feeds"⟩ ∧
      OnlyNamed (twins.documentsOf "Dictionary") "FEEDS" ⟨"Dictionary", "d", "Feeds"⟩ := by
  have hsources : (twins.dataSources.map (·.uuid)).Nodup := by decide
  have hdocuments : (twins.documents.map (·.uuid)).Nodup := by decide
  have hfound : twins.resolveDocument "Dictionary" "FEEDS" = .ok ⟨"Dictionary", "d", "Feeds"⟩ := by
    decide +kernel
  have hperm : turned.documents.Perm (twins.documents ++ [⟨"Pipeline", "p", "feeds"⟩]) :=
    ((List.reverse_perm _).cons _).trans (List.perm_append_singleton _ _).symm
  obtain ⟨-, hothers, -, honly⟩ := resolve_order_free hsources hdocuments "Dictionary" "FEEDS"
  refine ⟨hsources, hdocuments, ?_, ?_, honly _ hfound (by decide)⟩
  · intro name
    obtain ⟨horder, -⟩ := resolve_order_free hsources hdocuments "Dictionary" name
    exact (horder ⟨twins.dataSources.reverse, twins.documents⟩ (List.reverse_perm _) (.refl _)).1
  · exact (hothers turned _ (by decide) hperm).trans hfound

end Catalog

end PipeQuery
