import PipeQuery.Proofs.Clause.Order
import PipeQuery.Proofs.Error.Clauses
import PipeQuery.Proofs.Error.Columns
import PipeQuery.Proofs.Error.Conditions

/-!
Every query that is refused is refused at a place in it, except one that has nothing but blanks and
comments.
-/
namespace PipeQuery

section
variable {text : String} {ctx : Context}

theorem Node.Placed.extension? {n : Node} {e : Extension} (h : n.Placed text)
    (he : n.extension? = some e) : e.Placed text := by
  unfold Node.extension? at he
  split at he
  next bar command source span children =>
    split at he
    · cases he
      have hgroup : Group.Placed text ⟨.pipe bar command, source, span, children⟩ := h
      exact ⟨hgroup.frame command (by simp [GroupKind.wrap]), hgroup⟩
    · cases he
  next => cases he

private theorem placed_attachExtensions {nodes : List Node} (h : ∀ n ∈ nodes, n.Placed text) :
    (∀ e ∈ (attachExtensions nodes).1, e.Placed text) ∧
      ∀ entry ∈ (attachExtensions nodes).2,
        entry.1.Placed text ∧ ∀ e ∈ entry.2, e.Placed text := by
  induction nodes with
  | nil => simp [attachExtensions]
  | cons n nodes ih =>
    obtain ⟨hn, hnodes⟩ := List.forall_mem_cons.mp h
    obtain ⟨hleading, hentries⟩ := ih hnodes
    rw [attachExtensions]
    split
    next leading entries heq =>
      simp only [heq] at hleading hentries
      split
      next e he => exact ⟨List.forall_mem_cons.mpr ⟨hn.extension? he, hleading⟩, hentries⟩
      next => exact ⟨by simp, List.forall_mem_cons.mpr ⟨⟨hn, hleading⟩, hentries⟩⟩

namespace Draft

def LocatesVisuals (text : String) (ctx : Context) : Prop :=
  ∀ (g : Group) (table : Table), g.Placed text →
    Ends (SyntaxError.Located text) (fun _ => True) (ctx.services.readVisual g table)

private theorem ends_readPlain (hv : LocatesVisuals text ctx) (d : Draft) (clause : Clause)
    {g : Group} (hg : g.Placed text) :
    Ends (SyntaxError.Located text) (fun _ => True) (d.readPlain ctx clause g) := by
  cases clause with
  | source => exact (SourceClause.ends_read ctx.services hg).bind fun _ _ _ => trivial
  | eval =>
    refine (EvalClause.ends_read hg).bind fun r _ _ => ?_
    exact (d.ends_readScalar hg r.2).bind fun _ _ _ => trivial
  | window => exact (WindowClause.ends_read hg).bind fun _ _ _ => trivial
  | sort =>
    have hread := SortClause.ends_readNodes (placed_dropBy hg.children) .nothing
    exact hread.bind fun _ _ _ => trivial
  | group =>
    have hread := GroupClause.ends_readNodes (placed_dropBy hg.children) none
    exact hread.bind fun _ _ _ => trivial
  | select => exact d.ends_readSelect hg
  | limit => exact (LimitClause.ends_readNodes hg.children).bind fun _ _ _ => trivial
  | present => exact (hv g d.table hg).bind fun _ _ _ => trivial
  | restrict | filter | having => trivial

private theorem ends_readCondition {note : Bool} {g : Group} (hg : g.Placed text)
    {extensions : List Extension} (he : ∀ e ∈ extensions, e.Placed text) :
    Ends (Failure.Located text) (fun _ => True) (readCondition ctx note g extensions) := by
  have hread : Ends (Failure.Located text) (fun _ => True)
      ((ConditionClause.read ctx note g extensions).run []).1 :=
    ConditionClause.endsIn_read hg he []
  rw [readCondition]
  split
  next => trivial
  next e names heq =>
    rw [heq] at hread
    exact hread

private theorem ends_readClause (hv : LocatesVisuals text ctx) (d : Draft) {c : ClauseGroup}
    (hc : c.group.Placed text) {extensions : List Extension}
    (he : ∀ e ∈ extensions, e.Placed text) :
    Ends (Failure.Located text) (fun _ => True) (d.readClause ctx c extensions) := by
  rw [readClause]
  split
  · exact (ends_readCondition hc he).bind fun _ _ _ => trivial
  · exact (ends_readCondition hc he).bind fun _ _ _ => trivial
  · exact (ends_readCondition hc he).bind fun _ _ _ => trivial
  · refine (ends_readPlain hv d c.clause hc).ofExcept.bind fun d' _ _ => ?_
    split
    next => trivial
    next e extensions => exact (he e List.mem_cons_self).1.place.located _

/-- What a walk keeps: names are noted at places in the text, and the first clause has given the
data source. -/
structure Sound (text : String) (d : Draft) : Prop where
  having : ∀ f ∈ d.having, f.place.Points text
  source : d.consumed ≠ [] → d.source.isSome

private theorem ends_readEntry (hv : LocatesVisuals text ctx) {d : Draft} (hd : d.Sound text)
    {entry : Node × List Extension} (hn : entry.1.Placed text)
    (he : ∀ e ∈ entry.2, e.Placed text) :
    Ends (Failure.Located text) (fun d' => d'.Sound text ∧ d'.consumed ≠ [])
      (d.readEntry ctx entry) := by
  refine (Node.ends_clauseGroup hn).ofExcept.bind fun c _ hc => ?_
  refine (Clause.ends_checkOrder hc.1 c.clause d.consumed).ofExcept.bind fun _ horder _ => ?_
  refine (ends_readClause hv d hc.2 he).bind fun d' hread _ => ?_
  have hstep := step_readClause hread
  obtain ⟨hfirst, -⟩ := (Clause.checkOrder_eq_ok_iff _ _ _).mp (Result.ofExcept_eq_ok.mp horder)
  refine ⟨⟨?_, ?_⟩, by simp⟩
  · intro f hf
    rcases hstep.having f hf with hf | hf
    · exact hd.having f hf
    · exact hf ▸ hc.2.place
  · intro _
    have hsource := hstep.source
    rcases hfirst with hfirst | hfirst
    · obtain ⟨doc, -, hdoc⟩ : ∃ doc, _ ∧ d'.source = some doc := by simpa [hfirst] using hsource
      simp [hdoc]
    · split at hsource
      · obtain ⟨doc, -, hdoc⟩ := hsource
        simp [hdoc]
      · exact hsource ▸ hd.source (List.ne_nil_of_mem hfirst)

private theorem ends_readEntries (hv : LocatesVisuals text ctx)
    {entries : List (Node × List Extension)}
    (h : ∀ entry ∈ entries, entry.1.Placed text ∧ ∀ e ∈ entry.2, e.Placed text) {d : Draft}
    (hd : d.Sound text) (hne : entries ≠ [] ∨ d.consumed ≠ []) :
    Ends (Failure.Located text) (fun d' => d'.Sound text ∧ d'.consumed ≠ [])
      (readEntries ctx d entries) := by
  induction entries generalizing d with
  | nil => exact ⟨hd, by simpa using hne⟩
  | cons entry entries ih =>
    obtain ⟨⟨hn, he⟩, hentries⟩ := List.forall_mem_cons.mp h
    exact (ends_readEntry hv hd hn he).bind fun d' _ hd' => ih hentries hd'.1 (.inr hd'.2)

private theorem ends_ofRoot (hv : LocatesVisuals text ctx) {root : Group}
    (h : ∀ n ∈ root.children, n.Placed text) (hne : root.children ≠ []) :
    Ends (Failure.Located text) (fun d => d.Sound text ∧ d.consumed ≠ []) (ofRoot ctx root) := by
  obtain ⟨hleading, hentries⟩ := placed_attachExtensions h
  rw [ofRoot]
  split
  next e rest entries heq => exact (hleading e (by simp [heq])).1.place.located _
  next entries heq =>
    rw [heq] at hentries
    refine ends_readEntries hv hentries ⟨by simp, by simp⟩ (.inl ?_)
    rintro rfl
    cases hc : root.children with
    | nil => exact hne hc
    | cons n nodes =>
      rw [hc, attachExtensions] at heq
      cases hn : n.extension? <;> simp [hn] at heq

private theorem ends_finish {d : Draft} (hd : d.Sound text) (hc : d.consumed ≠ []) :
    Ends (SyntaxError.Located text) (fun _ => True) (d.finish ctx) := by
  have hsource := hd.source hc
  rw [finish]
  split
  next hnone =>
    rw [hnone] at hsource
    cases hsource
  next => exact (ends_addHidden hd.having d.addOrigins).bind fun _ _ _ => trivial

end Draft

private theorem Group.children_ne_nil {tokens : List Token} {root : Group}
    (h : ofTokens tokens = .ok root) {t : Token} (ht : t ∈ tokens)
    (hk : t.kind.isIgnorable = false) : root.children ≠ [] := by
  have hflatten := flatten_eq_meaningful h
  have hmem : t ∈ Token.meaningful tokens := List.mem_filter.mpr ⟨ht, by simp [hk]⟩
  obtain ⟨nodes, -, rfl⟩ := reads_of_ofTokens h
  intro hnil
  have hnodes : nodes = [] := hnil
  subst hnodes
  rw [← hflatten] at hmem
  cases hmem

theorem rootOf_of_mem {t : Token} (ht : t ∈ Lexer.tokens text) :
    rootOf text = Group.ofTokens (Lexer.tokens text) := by
  rw [rootOf]
  split
  next heq =>
    rw [heq] at ht
    cases ht
  next => rfl

/-- A query with a meaningful token is refused at a place in it. -/
theorem located_of_mem (hv : Draft.LocatesVisuals text ctx) {t : Token} (ht : t ∈ Lexer.tokens text)
    (hk : t.kind.isIgnorable = false) {e : SyntaxError}
    (h : compile ctx text = .error (.rejected e)) : e.Located text := by
  have htokens : ∀ u ∈ Token.meaningful (Lexer.tokens text), u.Placed text := by
    intro u hu
    exact Lexer.placed_of_mem_meaningful hu
  rw [compile, rootOf_of_mem ht] at h
  generalize Lexer.tokens text = tokens at ht htokens h
  have hends : Ends (Failure.Located text) (fun _ => True)
      (Result.ofExcept (Group.ofTokens tokens) >>= compileRoot ctx) := by
    refine (Group.ends_ofTokens htokens).ofExcept.bind fun root hroot hplaced => ?_
    have hne := Group.children_ne_nil (Result.ofExcept_eq_ok.mp hroot) ht hk
    refine (Draft.ends_ofRoot hv hplaced hne).bind fun d _ hd => ?_
    exact (Draft.ends_finish hd.1 hd.2).ofExcept
  rw [h] at hends
  exact hends

private theorem compileRoot_of_nil (ctx : Context) {root : Group} (h : root.children = []) :
    compileRoot ctx root = .error (.rejected ⟨.noDataSource, none⟩) := by
  rw [compileRoot, Draft.ofRoot, h]
  rfl

private theorem compile_of_ignorable (ctx : Context)
    (h : ∀ t ∈ Lexer.tokens text, t.kind.isIgnorable) :
    ∃ e, compile ctx text = .error (.rejected e) ∧ e.place = none := by
  have hmeaningful : Token.meaningful (Lexer.tokens text) = [] := by
    rw [Token.meaningful, List.filter_eq_nil_iff]
    intro t ht
    simp [h t ht]
  cases htokens : Lexer.tokens text with
  | nil =>
    refine ⟨⟨.noTokens, none⟩, ?_, rfl⟩
    rw [compile, rootOf, htokens]
    rfl
  | cons t ts =>
    refine ⟨⟨.noDataSource, none⟩, ?_, rfl⟩
    have ht : t ∈ Lexer.tokens text := by simp [htokens]
    obtain ⟨root, hroot, hnil⟩ : ∃ root, Group.ofTokens (Lexer.tokens text) = .ok root ∧
        root.children = [] := by
      rw [Group.ofTokens_eq, hmeaningful]
      exact ⟨_, rfl, rfl⟩
    rw [compile, rootOf_of_mem ht, hroot]
    exact compileRoot_of_nil ctx hnil

/-- A refusal is located, or nothing in the query could have been pointed at. -/
theorem located_or_ignorable (hv : Draft.LocatesVisuals text ctx) {e : SyntaxError}
    (h : compile ctx text = .error (.rejected e)) :
    e.Located text ∨ e.place = none ∧ ∀ t ∈ Lexer.tokens text, t.kind.isIgnorable := by
  by_cases hblank : ∀ t ∈ Lexer.tokens text, t.kind.isIgnorable
  · obtain ⟨e', he', hplace⟩ := compile_of_ignorable ctx hblank
    rw [h] at he'
    cases he'
    exact .inr ⟨hplace, hblank⟩
  · simp only [Classical.not_forall, Bool.not_eq_true] at hblank
    obtain ⟨t, ht, hk⟩ := hblank
    exact .inl (located_of_mem hv ht hk h)

end

/-- A query is refused at a place that covers some of it and is shown as it is written there, or at
no place, and that exactly when it has nothing but blanks and comments. -/
theorem compile_error_place (catalog : Catalog) (request : BaseRequest) (reference : Instant)
    (text : String) :
    (∀ e p, compile ⟨.ofCatalog catalog, request, reference⟩ text = .error (.rejected e) →
      e.place = some p →
        p.span.start < p.span.stop ∧ p.span.stop ≤ text.utf8ByteSize ∧ p.span.OnBoundaries text ∧
          ∃ front back, text = front ++ p.text ++ back ∧ front.utf8ByteSize = p.span.start ∧
            (front ++ p.text).utf8ByteSize = p.span.stop) ∧
    ((∃ e, compile ⟨.ofCatalog catalog, request, reference⟩ text = .error (.rejected e) ∧
      e.place = none) ↔ ∀ t ∈ Lexer.tokens text, t.kind.isIgnorable) := by
  have hv : Draft.LocatesVisuals text ⟨.ofCatalog catalog, request, reference⟩ :=
    fun _ table hg => Visual.ends_addTo hg table
  refine ⟨?_, ?_, compile_of_ignorable _⟩
  · intro e p he hp
    rcases located_or_ignorable hv he with ⟨q, hq, hspan, htext⟩ | ⟨hnone, -⟩
    · obtain rfl : q = p := Option.some.inj (hq.symm.trans hp)
      obtain ⟨front, back, happend, hstart, hstop⟩ := hspan.exists_append
      rw [← htext] at happend hstop
      refine ⟨hspan.1, ?_, hspan.2, front, back, happend, hstart, hstop⟩
      have hsize := congrArg String.utf8ByteSize happend
      rw [String.utf8ByteSize_append, hstop] at hsize
      omega
    · rw [hnone] at hp
      cases hp
  · rintro ⟨e, he, hnone⟩
    rcases located_or_ignorable hv he with ⟨q, hq, -⟩ | ⟨-, hblank⟩
    · rw [hnone] at hq
      cases hq
    · exact hblank

namespace Failure.Sample

def query : String := "from a\nhaving é"

end Failure.Sample

open Failure.Sample in
theorem compile_error_place_sample :
    (∃ e, compile .sample query = .error (.rejected e) ∧ e.place = some ⟨⟨14, 16⟩, "é"⟩) ∧
    (∃ front back, query = front ++ "é" ++ back ∧ front.utf8ByteSize = 14 ∧
      (front ++ "é").utf8ByteSize = 16) ∧
    ∃ e, compile .sample " // é" = .error (.rejected e) ∧ e.place = none := by
  have hplace : (match compile .sample query with
      | .error (.rejected e) => e.place
      | _ => none) = some ⟨⟨14, 16⟩, "é"⟩ := by decide +kernel
  have hblank : ∀ t ∈ Lexer.tokens " // é", t.kind.isIgnorable := by decide +kernel
  split at hplace
  next e he =>
    obtain ⟨-, -, -, hshown⟩ := (compile_error_place .sample {} ⟨0, 0⟩ query).1 e _ he hplace
    exact ⟨⟨e, he, hplace⟩, hshown, (compile_error_place .sample {} ⟨0, 0⟩ " // é").2.mpr hblank⟩
  next => cases hplace

end PipeQuery
