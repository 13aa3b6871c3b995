import PipeQuery.Clause.Entry
import PipeQuery.Proofs.Result

/-!
The nodes at the top of a query: which of them start a clause, and how a query falls into clauses,
each with the connective pipes directly after it.
-/
namespace PipeQuery

/-- The group starts a clause, with its keyword or with a command that stands for it. -/
inductive Group.Starts (g : Group) (c : Clause) : Prop
  | keyword (t : Token) (hkind : g.kind = .clause t) (hclause : t.kind = .clause c)
  | command (bar word : Token) (command : Command) (hkind : g.kind = .pipe bar word)
      (hname : Command.ofName? word.slice = some command) (hclause : command.clause? = some c)

private theorem TokenKind.eq_of_clause? {k : TokenKind} {c : Clause} (h : k.clause? = some c) :
    k = .clause c := by
  cases k with
  | clause c' =>
    cases h
    rfl
  | _ => cases h

namespace Node

/-- A node that is read as a clause is a group that starts it. -/
theorem clauseGroup_eq_ok {n : Node} {c : ClauseGroup} (h : n.clauseGroup = .ok c) :
    n = c.group.toNode ∧ c.group.Starts c.clause := by
  rw [clauseGroup] at h
  cases n with
  | token t => cases h
  | group kind source span children =>
    cases kind with
    | clause keyword =>
      simp only [group?] at h
      split at h
      next c' hc' =>
        cases h
        exact ⟨rfl, .keyword keyword rfl (TokenKind.eq_of_clause? hc')⟩
      next => cases h
    | pipe bar word =>
      simp only [group?, Group.command] at h
      cases hname : Command.ofName? word.slice with
      | none => simp [hname] at h
      | some command =>
        rw [hname] at h
        cases command with
        | logic op => cases h
        | _ =>
          cases h
          exact ⟨rfl, .command bar word _ rfl hname rfl⟩
    | root => cases h
    | bracket o c => cases h
    | function name o c => cases h

theorem exists_clauseGroup {g : Group} {c : Clause} (h : g.Starts c) :
    ∃ place, g.toNode.clauseGroup = .ok ⟨c, place, g⟩ := by
  obtain ⟨kind, source, span, children⟩ := g
  cases h with
  | keyword t hkind hclause =>
    cases hkind
    exact ⟨t.place, by simp [clauseGroup, Group.toNode, group?, hclause, TokenKind.clause?]⟩
  | command bar word command hkind hname hclause =>
    cases hkind
    refine ⟨word.place, ?_⟩
    simp only [clauseGroup, Group.toNode, group?, Group.command, hname]
    cases command with
    | logic op => cases hclause
    | _ =>
      cases hclause
      rfl

def holds (ns : List Node) (c : Clause) : Bool :=
  ns.any fun n => n.clauseGroup.toOption.map (·.clause) == some c

theorem holds_iff {ns : List Node} {c : Clause} :
    holds ns c = true ↔ ∃ g : Group, g.toNode ∈ ns ∧ g.Starts c := by
  rw [holds, List.any_eq_true]
  constructor
  · rintro ⟨n, hn, hclause⟩
    obtain ⟨g, hg, rfl⟩ := Option.map_eq_some_iff.mp (beq_iff_eq.mp hclause)
    obtain ⟨rfl, hstarts⟩ := clauseGroup_eq_ok (eq_ok_of_toOption hg)
    exact ⟨g.group, hn, hstarts⟩
  · rintro ⟨g, hg, hstarts⟩
    obtain ⟨place, hplace⟩ := exists_clauseGroup hstarts
    exact ⟨g.toNode, hg, by rw [hplace]; exact beq_self_eq_true _⟩

/-- What starts a clause is no extension. -/
theorem extension?_of_starts {g : Group} {c : Clause} (h : g.Starts c) :
    g.toNode.extension? = none := by
  obtain ⟨kind, source, span, children⟩ := g
  cases h with
  | keyword t hkind hclause =>
    cases hkind
    rfl
  | command bar word command hkind hname hclause =>
    cases hkind
    cases command with
    | logic op => cases hclause
    | _ => simp [Group.toNode, extension?, hname]

end Node

/-- The first node that takes extensions is the first node of all if no extension comes apart. -/
theorem head_of_attachExtensions {ns : List Node} {entry : Node × List Extension}
    {entries : List (Node × List Extension)} (h : attachExtensions ns = ([], entry :: entries)) :
    ns.head? = some entry.1 := by
  cases ns with
  | nil => cases h
  | cons n ns =>
    rw [attachExtensions] at h
    cases he : n.extension? with
    | some e => simp [he] at h
    | none =>
      simp only [he] at h
      cases h
      rfl

theorem entries_of_pipes {pipes : List Node} (h : ∀ p ∈ pipes, p.extension?.isSome) :
    (attachExtensions pipes).2 = [] := by
  induction pipes with
  | nil => rfl
  | cons p pipes ih =>
    obtain ⟨e, he⟩ := Option.isSome_iff_exists.mp (h p List.mem_cons_self)
    rw [attachExtensions, he]
    exact ih fun q hq => h q (List.mem_cons_of_mem _ hq)

/-- A node that is no extension starts an entry. -/
theorem attachExtensions_cons {n : Node} (h : n.extension? = none) (ns : List Node) :
    attachExtensions (n :: ns) = ([], (n, (attachExtensions ns).1) :: (attachExtensions ns).2) := by
  rw [attachExtensions, h]

/-- A query may be cut before every node that is no extension. -/
theorem attachExtensions_append {ns ms : List Node} (h : (attachExtensions ms).1 = []) :
    attachExtensions (ns ++ ms) =
      ((attachExtensions ns).1, (attachExtensions ns).2 ++ (attachExtensions ms).2) := by
  induction ns with
  | nil => exact Prod.ext h rfl
  | cons n ns ih =>
    rw [List.cons_append, attachExtensions, attachExtensions, ih]
    cases n.extension? with
    | some e => rfl
    | none => rfl

end PipeQuery
