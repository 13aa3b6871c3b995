import PipeQuery.Clause.Reader
import PipeQuery.Proofs.Error.Located

/-!
Where conditions are refused: terms at one of their nodes, connectives where they are written, and
extensions as a whole.
-/
namespace PipeQuery

open Failure (Located)

section
variable {text : String} {ctx : Context}

namespace TermReader

theorem ends_readParam {call : Group} (h : call.Placed text) :
    Ends (Located text) (fun _ => True) (readParam ctx call) := by
  have hchildren := h.children
  rw [readParam]
  split
  next => exact h.place.located _
  next name heq =>
    split
    · trivial
    · exact (hchildren name (by simp [heq])).place.located _
  next first extra rest heq => exact (hchildren extra (by simp [heq])).place.located _

private theorem ends_checkNumber {nodes : List Node} (h : ∀ n ∈ nodes, n.Placed text)
    (signed seen : Bool) : Ends (Located text) (fun _ => True) (checkNumber signed seen nodes) := by
  induction nodes generalizing signed seen with
  | nil => trivial
  | cons n nodes ih =>
    obtain ⟨hn, hnodes⟩ := List.forall_mem_cons.mp h
    have hreject : Ends (Located text) (fun _ => True)
        (n.place.reject .unexpectedToken : Result Unit) := hn.place.located _
    rw [checkNumber]
    split
    · split
      · exact hreject
      · exact ih hnodes _ _
    · split
      · exact hreject
      · exact ih hnodes _ _
    · split
      · exact hreject
      · exact ih hnodes _ _
    · exact hreject

/-- Nodes with a date among them have a first node. -/
theorem ends_checkLiteral {nodes : List Node} (h : ∀ n ∈ nodes, n.Placed text) :
    Ends (Located text) (fun _ => True) (checkLiteral ctx nodes) := by
  unfold checkLiteral
  split
  next hdated =>
    cases nodes with
    | nil => cases hdated
    | cons n nodes =>
      split
      · trivial
      next e _ =>
        cases e with
        | rejected e => exact (h n List.mem_cons_self).place.located _
        | overflow => trivial
  next =>
    split
    · exact ends_checkNumber h false false
    · split
      next first extra rest _ _ => exact (h extra (by simp)).place.located _
      next => trivial

private theorem ends_readValue {nodes : List Node} (h : ∀ n ∈ nodes, n.Placed text) :
    Ends (Located text) (fun _ => True) (readValue ctx nodes) := by
  rw [readValue]
  split
  next n g hfound =>
    obtain ⟨m, hm, hmap⟩ := List.exists_of_findSome?_eq_some hfound
    obtain ⟨call, hcall, heq⟩ := Option.map_eq_some_iff.mp hmap
    obtain ⟨rfl, rfl⟩ := Prod.mk.inj heq
    have hcall := (h m hm).function? (Option.filter_eq_some_iff.mp hcall).1
    split
    · split
      next first extra rest => exact (h extra (by simp)).place.located _
      next => exact ends_readParam hcall
    · exact (h m hm).place.located _
  next => exact (ends_checkLiteral h).bind fun _ _ _ => trivial

def ListBefore.Placed (text : String) : ListBefore → Prop
  | .comma n => n.Placed text
  | _ => True

private theorem ends_readList {nodes : List Node} (h : ∀ n ∈ nodes, n.Placed text)
    {before : ListBefore} (hb : before.Placed text) :
    Ends (Located text) (fun _ => True) (readList before nodes) := by
  fun_induction readList before nodes with
  | case1 n =>
    have hn : n.Placed text := hb
    exact hn.place.located _
  | case2 => trivial
  | case3 | case4 | case6 | case8 => exact (h _ List.mem_cons_self).place.located _
  | case5 n nodes hcomma ih =>
    obtain ⟨hn, hnodes⟩ := List.forall_mem_cons.mp h
    exact ih hnodes hn
  | case7 before n nodes hcomma hvalue hbefore ih =>
    exact (ih (List.forall_mem_cons.mp h).2 trivial).bind fun _ _ _ => trivial

private theorem ends_readDictionary (field : String) {word : Node} (hword : word.Placed text)
    {nodes : List Node} (h : ∀ n ∈ nodes, n.Placed text) :
    Ends (Located text) (fun _ => True) (readDictionary ctx field word nodes) := by
  unfold readDictionary
  split
  next => exact hword.place.located _
  next first extra rest => exact (h extra (by simp)).place.located _
  next name =>
    have hname := h name (by simp)
    split
    · split
      · trivial
      · exact hname.place.located _
    · exact hname.place.located _

private theorem ends_readMembership (field : String) {value : Node} (hvalue : value.Placed text)
    {rest : List Node} (h : ∀ n ∈ rest, n.Placed text) :
    Ends (Located text) (fun _ => True) (readMembership ctx field value rest) := by
  unfold readMembership
  split
  · exact ends_readDictionary field hvalue h
  · split
    next => exact hvalue.place.located _
    next g hg =>
      split
      next extra rest => exact (h extra (by simp)).place.located _
      next =>
        have hlist : Ends (Located text) (fun _ => True) (readList .nothing g.children) :=
          ends_readList (hvalue.bracket? hg).children trivial
        exact hlist.bind fun _ _ _ => trivial

private theorem placed_takeWhile {p : Node → Bool} {nodes : List Node}
    (h : ∀ n ∈ nodes, n.Placed text) : ∀ n ∈ nodes.takeWhile p, n.Placed text :=
  fun n hn => h n ((List.takeWhile_prefix p).subset hn)

private theorem ends_readComparison {nodes : List Node} (h : ∀ n ∈ nodes, n.Placed text) :
    Ends (Located text) (fun _ => True) (readComparison ctx nodes) := by
  refine (ends_readValue (placed_takeWhile h)).bind fun value _ _ => ?_
  split
  next extra rest heq =>
    have hextra : extra ∈ nodes := (List.dropWhile_suffix _).subset (heq ▸ List.mem_cons_self)
    exact (h extra hextra).place.located _
  next => trivial

private theorem ends_readBounds {condition : Node} (hc : condition.Placed text) {nodes : List Node}
    (h : ∀ n ∈ nodes, n.Placed text) :
    Ends (Located text) (fun _ => True) (readBounds ctx condition nodes) := by
  refine (ends_readValue (placed_takeWhile h)).bind fun lower _ _ => ?_
  split
  next =>
    cases hlast : nodes.getLast? with
    | none => exact hc.place.located _
    | some n => exact (h n (List.mem_of_getLast? hlast)).place.located _
  next separator rest heq =>
    have hrest : ∀ n ∈ separator :: rest, n.Placed text := by
      intro n hn
      exact h n ((List.dropWhile_suffix _).subset (heq ▸ hn))
    obtain ⟨hseparator, hrest⟩ := List.forall_mem_cons.mp hrest
    refine (ends_readValue (placed_takeWhile hrest)).bind fun upper _ _ => ?_
    split
    · exact hseparator.place.located _
    · split
      next extra others heq' =>
        have hextra : extra ∈ rest := (List.dropWhile_suffix _).subset (heq' ▸ List.mem_cons_self)
        exact (hrest extra hextra).place.located _
      next => trivial

private theorem ends_readValues {field condition : Node} (hf : field.Placed text)
    (hc : condition.Placed text) (c : Condition) {values : List Node}
    (h : ∀ n ∈ values, n.Placed text) :
    Ends (Located text) (fun _ => True) (readValues ctx field condition c values) := by
  unfold readValues
  dsimp only
  split
  · trivial
  · trivial
  next extra rest => exact (h extra List.mem_cons_self).place.located _
  next extra rest => exact (h extra List.mem_cons_self).place.located _
  next => exact hf.place.located _
  next value rest =>
    obtain ⟨hvalue, hrest⟩ := List.forall_mem_cons.mp h
    exact ends_readMembership _ hvalue hrest
  next => exact (ends_readBounds hc h).bind fun _ _ _ => trivial
  next => exact (ends_readComparison h).bind fun _ _ _ => trivial

/-- A term has at least one node. -/
theorem ends_read {nodes : List Node} (hne : nodes ≠ []) (h : ∀ n ∈ nodes, n.Placed text) :
    Ends (Located text) (fun _ => True) (read ctx nodes) := by
  cases nodes with
  | nil => exact absurd rfl hne
  | cons field rest =>
    obtain ⟨hfield, hrest⟩ := List.forall_mem_cons.mp h
    rw [read.eq_def]
    dsimp only
    split
    · exact hfield.place.located _
    · split
      next => exact hfield.place.located _
      next condition values =>
        obtain ⟨hcondition, hvalues⟩ := List.forall_mem_cons.mp hrest
        split
        · exact hcondition.place.located _
        · exact ends_readValues hfield hcondition _ hvalues

end TermReader

namespace Part

def Placed (text : String) : Part → Prop
  | .item _ => True
  | .logic _ place => place.Points text

private theorem ends_negations {parts : List Part} (h : ∀ p ∈ parts, p.Placed text) :
    Ends (SyntaxError.Located text) (∀ p ∈ ·, p.Placed text) (negations parts) := by
  fun_induction negations parts with
  | case1 => exact h
  | case2 place i rest ih =>
    refine (ih fun p hp => h p (by simp [hp])).bind fun parts _ hparts => ?_
    exact List.forall_mem_cons.mpr ⟨trivial, hparts⟩
  | case3 place op place' rest =>
    have hplace : place.Points text := h _ List.mem_cons_self
    exact hplace.located _
  | case4 place =>
    have hplace : place.Points text := h _ List.mem_cons_self
    exact hplace.located _
  | case5 part rest _ _ _ ih =>
    obtain ⟨hpart, hrest⟩ := List.forall_mem_cons.mp h
    refine (ih hrest).bind fun parts _ hparts => ?_
    exact List.forall_mem_cons.mpr ⟨hpart, hparts⟩

def Before.Placed (text : String) : Before → Prop
  | .logic _ place => place.Points text
  | _ => True

private theorem ends_runs {parts : List Part} (h : ∀ p ∈ parts, p.Placed text) {before : Before}
    (hb : before.Placed text) :
    Ends (SyntaxError.Located text) (fun _ => True) (runs before parts) := by
  fun_induction runs before parts with
  | case1 op place =>
    have hplace : place.Points text := hb
    exact hplace.located _
  | case2 => trivial
  | case3 before i rest ih =>
    refine (ih (List.forall_mem_cons.mp h).2 trivial).bind fun runs _ _ => ?_
    cases runs with
    | nil => trivial
    | cons run others => trivial
  | case4 op place rest =>
    have hplace : place.Points text := h _ List.mem_cons_self
    exact hplace.located _
  | case5 previous place op place' rest =>
    have hplace : place'.Points text := h _ List.mem_cons_self
    exact hplace.located _
  | case6 op place rest ih =>
    obtain ⟨hplace, hrest⟩ := List.forall_mem_cons.mp h
    exact (ih hrest hplace).bind fun _ _ _ => trivial

private theorem ends_combine {parts : List Part} (h : ∀ p ∈ parts, p.Placed text) :
    Ends (SyntaxError.Located text) (fun _ => True) (combine parts) := by
  refine (ends_negations h).bind fun negated _ hnegated => ?_
  have hruns : Ends (SyntaxError.Located text) (fun _ => True) (runs .nothing negated) :=
    ends_runs hnegated trivial
  exact hruns.bind fun _ _ _ => trivial

end Part

namespace FilterReader

structure Progress.Placed (text : String) (p : Progress) : Prop where
  parts : ∀ part ∈ p.parts, part.Placed text
  term : ∀ n ∈ p.term, n.Placed text

variable {note : Bool} {p : Progress}

theorem placed_empty : Progress.Placed text {} := ⟨by simp, by simp⟩

theorem Progress.Placed.push (h : p.Placed text) {n : Node} (hn : n.Placed text) :
    (p.push n).Placed text :=
  ⟨h.parts, List.forall_mem_append.mpr ⟨h.term, List.forall_mem_singleton.mpr hn⟩⟩

private theorem Progress.Placed.addPart (h : p.Placed text) {part : Part}
    (hpart : part.Placed text) : Progress.Placed text { p with parts := p.parts ++ [part] } :=
  ⟨List.forall_mem_append.mpr ⟨h.parts, List.forall_mem_singleton.mpr hpart⟩, h.term⟩

private theorem endsIn_endTerm (h : p.Placed text) :
    EndsIn (Located text) (Progress.Placed text) (p.endTerm ctx note) := by
  rw [Progress.endTerm]
  split
  · exact fun s => h
  next hne =>
    have hterm : Ends (Located text) (fun _ => True) (TermReader.read ctx p.term) :=
      TermReader.ends_read (by simpa using hne) h.term
    refine (EndsIn.lift hterm).bind fun t _ => ?_
    have hitem : Part.Placed text (.item (.term t)) := trivial
    have hdone : Progress.Placed text ⟨p.parts ++ [.item (.term t)], []⟩ :=
      ⟨(h.addPart hitem).parts, by simp⟩
    cases note with
    | true => exact fun s => hdone
    | false => exact fun s => hdone

private theorem endsIn_finish (h : p.Placed text) :
    EndsIn (Located text) (fun _ => True) (p.finish ctx note) := by
  refine (endsIn_endTerm h).bind fun q hq => ?_
  have hcombine := Part.ends_combine hq.parts
  split
  next op _ => exact fun s => trivial
  next e he =>
    rw [he] at hcombine
    exact fun s => hcombine

mutual

private theorem endsIn_readNode : (n : Node) → n.Placed text → {p : Progress} → p.Placed text →
    EndsIn (Located text) (Progress.Placed text) (readNode ctx note p n)
  | .token t, hn, p, hp => by
    have hpush := hp.push hn
    rw [readNode]
    split
    · exact fun s => hpush
    · split
      next op _ =>
        cases hn with
        | token ht => exact (endsIn_endTerm hp).bind fun q hq s => hq.addPart ht.place
      next => exact fun s => hpush
  | .group kind source span children, hn, p, hp => by
    have hpush := hp.push hn
    cases hn with
    | group points frame inside =>
      cases kind with
      | bracket opening closing =>
        rw [readNode]
        split
        · refine (endsIn_readNodes children inside placed_empty).bind fun q hq => ?_
          exact (endsIn_finish hq).bind fun op _ s => hp.addPart trivial
        · exact fun s => hpush
      | _ => exact fun s => hpush

private theorem endsIn_readNodes : (ns : List Node) → (∀ n ∈ ns, n.Placed text) → {p : Progress} →
    p.Placed text → EndsIn (Located text) (Progress.Placed text) (readNodes ctx note p ns)
  | [], _, p, hp => fun s => hp
  | n :: ns, h, p, hp => by
    obtain ⟨hn, hns⟩ := List.forall_mem_cons.mp h
    exact (endsIn_readNode n hn hp).bind fun q hq => endsIn_readNodes ns hns hq

end

theorem endsIn_read {nodes : List Node} (h : ∀ n ∈ nodes, n.Placed text) :
    EndsIn (Located text) (fun _ => True) (read ctx note nodes) :=
  (endsIn_readNodes nodes h placed_empty).bind fun _ hq => endsIn_finish hq

end FilterReader

def Extension.Placed (text : String) (e : Extension) : Prop :=
  e.command.Placed text ∧ e.group.Placed text

namespace ConditionClause
variable {note : Bool}

private theorem placed_connectives {e : Extension} (h : e.Placed text) :
    ∀ p ∈ connectives e, p.Placed text := by
  have hplace := h.1.place
  intro p hp
  rw [connectives] at hp
  split at hp
  · cases List.mem_singleton.mp hp
    exact hplace
  · cases List.mem_singleton.mp hp
    exact hplace
  · simp only [List.mem_cons, List.not_mem_nil, or_false] at hp
    rcases hp with rfl | rfl
    · exact hplace
    · exact hplace

private theorem endsIn_readExtension {e : Extension} (h : e.Placed text) :
    EndsIn (Located text) (∀ p ∈ ·, p.Placed text) (readExtension ctx note e) := by
  refine (FilterReader.endsIn_read h.2.children).bind fun condition _ => ?_
  split
  · exact fun s => h.2.place.located _
  · intro s
    have hitem : Part.Placed text (.item condition.toItem) := trivial
    exact List.forall_mem_append.mpr ⟨placed_connectives h, List.forall_mem_singleton.mpr hitem⟩

private theorem endsIn_readExtensions {es : List Extension} (h : ∀ e ∈ es, e.Placed text) :
    EndsIn (Located text) (∀ p ∈ ·, p.Placed text) (readExtensions ctx note es) := by
  induction es with
  | nil => exact fun s p hp => by cases hp
  | cons e es ih =>
    obtain ⟨he, hes⟩ := List.forall_mem_cons.mp h
    refine (endsIn_readExtension he).bind fun parts hparts => ?_
    exact (ih hes).bind fun rest hrest s => List.forall_mem_append.mpr ⟨hparts, hrest⟩

theorem endsIn_read {clause : Group} (hc : clause.Placed text) {es : List Extension}
    (h : ∀ e ∈ es, e.Placed text) :
    EndsIn (Located text) (fun _ => True) (read ctx note clause es) := by
  refine (FilterReader.endsIn_read hc.children).bind fun condition _ => ?_
  refine (endsIn_readExtensions h).bind fun parts hparts => ?_
  have hcombine := Part.ends_combine (List.forall_mem_cons.mpr ⟨trivial, hparts⟩ :
    ∀ p ∈ Part.item condition.toItem :: parts, p.Placed text)
  split
  next op _ => exact fun s => trivial
  next e he =>
    rw [he] at hcombine
    exact fun s => hcombine

end ConditionClause

end

end PipeQuery
