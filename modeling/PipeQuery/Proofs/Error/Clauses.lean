import PipeQuery.Compile
import PipeQuery.Proofs.Error.Located

/-!
Where clauses without conditions are refused: at their keyword or command, at the whole clause, or
at a node inside of it.
-/
namespace PipeQuery

open SyntaxError (Located)

section
variable {text : String}

private theorem Group.ends_command {g : Group} (h : g.Placed text) :
    Ends (Located text) (fun _ => True) g.command := by
  rw [Group.command]
  split
  next bar command heq =>
    have hcommand := h.frame command (by simp [heq, GroupKind.wrap])
    split
    · trivial
    · exact hcommand.place.located _
  next => exact h.place.located _

theorem Node.ends_clauseGroup {n : Node} (h : n.Placed text) :
    Ends (Located text) (fun c => c.place.Points text ∧ c.group.Placed text) n.clauseGroup := by
  rw [Node.clauseGroup]
  split
  next => exact h.place.located _
  next g hg =>
    have hgroup := h.group? hg
    split
    next keyword heq =>
      have hkeyword := hgroup.frame keyword (by simp [heq, GroupKind.wrap])
      split
      · exact ⟨hkeyword.place, hgroup⟩
      · exact h.place.located _
    next bar word heq =>
      have hword := hgroup.frame word (by simp [heq, GroupKind.wrap])
      have hcommand := Group.ends_command hgroup
      split
      next e he =>
        rw [he] at hcommand
        exact hcommand
      next => exact hword.place.located _
      next =>
        split
        · exact ⟨hword.place, hgroup⟩
        · exact h.place.located _
    next => exact h.place.located _

theorem Clause.ends_checkOrder {place : Place} (h : place.Points text) (clause : Clause)
    (consumed : List Clause) :
    Ends (Located text) (fun _ => True) (checkOrder place clause consumed) := by
  rw [checkOrder]
  split
  · exact h.located _
  · trivial

private theorem SourceClause.ends_resolve (services : Services) {name : Node}
    (h : name.Placed text) : Ends (Located text) (fun _ => True) (resolve services name) := by
  rw [resolve]
  split
  · split
    · trivial
    · exact h.place.located _
  · exact h.place.located _

theorem SourceClause.ends_read (services : Services) {clause : Group} (h : clause.Placed text) :
    Ends (Located text) (fun _ => True) (read services clause) := by
  have hchildren := h.children
  rw [read]
  split
  next name extra rest heq => exact (hchildren extra (by simp [heq])).place.located _
  next =>
    rw [readFirst]
    split
    next => exact h.place.located _
    next name rest heq => exact ends_resolve services (hchildren name (by simp [heq]))

theorem EvalClause.ends_read {clause : Group} (h : clause.Placed text) :
    Ends (Located text) (fun _ => True) (read clause) := by
  have hchildren := h.children
  rw [read]
  split
  next => exact h.place.located _
  next name rest heq =>
    have hname := hchildren name (by simp [heq])
    split
    · split
      next => exact hname.place.located _
      next equals body =>
        have hequals := hchildren equals (by simp [heq])
        split
        · exact hequals.place.located _
        · split
          · exact hequals.place.located _
          · trivial
    · exact hname.place.located _

namespace WindowClause
variable {nodes : List Node}

private theorem cutAt?_eq_some {α : Type} {p : α → Bool} {as before after : List α} {a : α}
    (h : cutAt? p as = some (before, a, after)) : as = before ++ a :: after := by
  induction as generalizing before with
  | nil => cases h
  | cons b as ih =>
    rw [cutAt?] at h
    split at h
    · cases h
      rfl
    · obtain ⟨⟨before', a', after'⟩, hcut, heq⟩ := Option.map_eq_some_iff.mp h
      cases heq
      rw [ih hcut, List.cons_append]

/-- A word and the duration after it are taken out of the nodes. -/
theorem ends_takeDuration {part : WindowPart} {before after : List Node} {word : Node}
    (h : ∀ n ∈ before ++ word :: after, n.Placed text) :
    Ends (Located text) (fun r => ∀ n ∈ r.2, n.Placed text)
      (takeDuration part before word after) := by
  cases after with
  | nil => exact (h word (by simp)).place.located _
  | cons d rest =>
    rw [takeDuration]
    split
    · intro n hn
      rcases List.mem_append.mp hn with hn | hn
      · exact h n (by simp [hn])
      · exact h n (by simp [hn])
    · exact (h d (by simp)).place.located _

private theorem ends_readSize {clause : Group} (h : clause.Placed text)
    (hn : ∀ n ∈ nodes, n.Placed text) :
    Ends (Located text) (fun r => ∀ n ∈ r.2, n.Placed text) (readSize clause nodes) := by
  rw [readSize]
  split
  next => exact h.place.located _
  next before word after hcut => exact ends_takeDuration (cutAt?_eq_some hcut ▸ hn)

private theorem ends_readAdvance (size : String) (hn : ∀ n ∈ nodes, n.Placed text) :
    Ends (Located text) (fun r => ∀ n ∈ r.2, n.Placed text) (readAdvance size nodes) := by
  rw [readAdvance]
  split
  next => exact hn
  next before word after hcut => exact ends_takeDuration (cutAt?_eq_some hcut ▸ hn)

private theorem ends_readFunction (hn : ∀ n ∈ nodes, n.Placed text) :
    Ends (Located text) (fun r => ∀ n ∈ r.2, n.Placed text) (readFunction nodes) := by
  rw [readFunction]
  split
  next => exact hn
  next before word hcut =>
    rw [cutAt?_eq_some hcut] at hn
    exact (hn word (by simp)).place.located _
  next before word f rest hcut =>
    rw [cutAt?_eq_some hcut] at hn
    intro n hmem
    exact hn n (by rcases List.mem_append.mp hmem with hmem | hmem <;> simp [hmem])

theorem ends_read {clause : Group} (h : clause.Placed text) :
    Ends (Located text) (fun _ => True) (read clause) := by
  have hchildren := h.children
  rw [read]
  split
  next => exact h.place.located _
  next field nodes heq =>
    have hfield := hchildren field (by simp [heq])
    have hnodes : ∀ n ∈ nodes, n.Placed text := fun n hn => hchildren n (by simp [heq, hn])
    split
    · refine (ends_readSize h hnodes).bind fun size _ hsize => ?_
      refine (ends_readAdvance size.1 hsize).bind fun advance _ hadvance => ?_
      refine (ends_readFunction hadvance).bind fun function _ hfunction => ?_
      obtain ⟨function, nodes⟩ := function
      cases nodes with
      | nil => trivial
      | cons extra nodes => exact (hfunction extra List.mem_cons_self).place.located _
    · exact hfield.place.located _

end WindowClause

theorem placed_dropBy {nodes : List Node} (h : ∀ n ∈ nodes, n.Placed text) :
    ∀ n ∈ dropBy nodes, n.Placed text := by
  cases nodes with
  | nil => exact h
  | cons n nodes =>
    rw [dropBy]
    split
    · exact (List.forall_mem_cons.mp h).2
    · exact h

theorem SortClause.ends_readNodes {nodes : List Node} (h : ∀ n ∈ nodes, n.Placed text)
    (p : Progress) : Ends (Located text) (fun _ => True) (readNodes p nodes) := by
  induction nodes generalizing p with
  | nil => trivial
  | cons n nodes ih =>
    obtain ⟨hn, hnodes⟩ := List.forall_mem_cons.mp h
    rw [readNodes.eq_def]
    dsimp only
    split
    · split
      · exact ih hnodes _
      · split
        · exact ih hnodes _
        · exact hn.place.located _
      · exact hn.place.located _
    · split
      · split
        · exact (ih hnodes _).bind fun _ _ _ => trivial
        · exact hn.place.located _
      · exact hn.place.located _

theorem GroupClause.ends_readNodes {nodes : List Node} (h : ∀ n ∈ nodes, n.Placed text)
    (field : Option String) : Ends (Located text) (fun _ => True) (readNodes field nodes) := by
  induction nodes generalizing field with
  | nil => trivial
  | cons n nodes ih =>
    obtain ⟨hn, hnodes⟩ := List.forall_mem_cons.mp h
    rw [readNodes.eq_def]
    dsimp only
    split
    · split
      · exact ih hnodes _
      · exact hn.place.located _
    · split
      · split
        · exact (ih hnodes _).bind fun _ _ _ => trivial
        · exact hn.place.located _
      · exact hn.place.located _

theorem LimitClause.ends_readNodes {nodes : List Node} (h : ∀ n ∈ nodes, n.Placed text) :
    Ends (Located text) (fun _ => True) (readNodes nodes) := by
  induction nodes with
  | nil => trivial
  | cons n nodes ih =>
    obtain ⟨hn, hnodes⟩ := List.forall_mem_cons.mp h
    rw [readNodes.eq_def]
    dsimp only
    split
    · split
      · exact (ih hnodes).bind fun _ _ _ => trivial
      · exact hn.place.located _
    · split
      · exact ih hnodes
      · exact hn.place.located _

end

end PipeQuery
