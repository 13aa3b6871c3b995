import PipeQuery.Filter.Reader
import PipeQuery.Proofs.Group.Moved
import PipeQuery.Proofs.Result

/-!
What a value is hangs on what its nodes show, not on where they stand. Only faults point at places.
-/
namespace PipeQuery

namespace Node

private theorem function?_text {n : Node} {g : Group} (h : n.function? = some g) :
    g.text = n.text := by
  unfold Node.function? at h
  split at h
  · cases h
    rfl
  · cases h

private theorem isSome_function?_congr {n m : Node} (h : n.view = m.view) :
    n.function?.isSome = m.function?.isSome := by
  have hsome := congrArg (fun v : View => v.call.isSome) h
  simpa [view] using hsome

end Node

namespace DateExpression

private theorem shiftBy_congr {n m : Node} (h : n.view = m.view) (t : Instant) (back : Bool) :
    shiftBy t back n = shiftBy t back m := by
  have hkind : n.kind = m.kind := congrArg Node.View.kind h
  have htext : n.text = m.text := congrArg Node.View.text h
  rw [shiftBy, shiftBy, hkind, htext]

private theorem shiftAll_congr {ns ms : List Node} (h : ns.map Node.view = ms.map Node.view)
    (t : Instant) : shiftAll t ns = shiftAll t ms := by
  -- A sign is read with the node after it, so the induction is on the number of nodes.
  induction hlength : ns.length using Nat.strongRecOn generalizing ns ms t with
  | ind size ih =>
    cases ns with
    | nil =>
      obtain rfl := List.map_eq_nil_iff.mp h.symm
      rfl
    | cons n ns =>
      obtain ⟨m, ms, rfl, hview, hrest⟩ := List.map_eq_cons_iff.mp h.symm
      have hkind : m.kind = n.kind := congrArg Node.View.kind hview
      have htext : m.text = n.text := congrArg Node.View.text hview
      rw [List.length_cons] at hlength
      have hstep {d e : Node} {ns' ms' : List Node} (hd : d.view = e.view)
          (htail : ns'.map Node.view = ms'.map Node.view) (hshort : ns'.length < size)
          (back : Bool) : (shiftBy t back d >>= fun t => shiftAll t ns') =
            shiftBy t back e >>= fun t => shiftAll t ms' := by
        rw [shiftBy_congr hd]
        exact congrArg _ (funext fun t => ih _ hshort htail t rfl)
      have hone := hstep hview.symm hrest.symm (by omega) false
      rw [shiftAll.eq_def, shiftAll.eq_def t (m :: ms)]
      simp only [hkind, htext]
      cases ns with
      | nil =>
        obtain rfl := List.map_eq_nil_iff.mp hrest
        split
        · exact hone
        · rfl
        · rfl
        · rfl
      | cons d ns =>
        obtain ⟨e, ms, rfl, hviews, htail⟩ := List.map_eq_cons_iff.mp hrest
        rw [List.length_cons] at hlength
        split
        · exact hone
        · exact hstep hviews.symm htail.symm (by omega) false
        · exact hstep hviews.symm htail.symm (by omega) true
        · rfl

/-- A date expression starts with a call, with a date-time, or with the reference time. -/
theorem read_cons (reference : Instant) (n : Node) (ns : List Node) :
    read reference (n :: ns) =
      if n.function?.isSome then callPoint reference n.text >>= fun t => shiftAll t ns
      else if n.group?.isNone ∧ n.kind = .dateTime then
        (DateLiteral.read n.text).mapError .rejected >>= fun t => shiftAll t ns
      else shiftAll reference (n :: ns) := by
  cases n with
  | token t =>
    by_cases hkind : t.kind = .dateTime
    · have htext : t.text = t.slice := by simp [Token.text, hkind]
      simp [read, Node.function?, Node.group?, Node.kind, Node.text, hkind, htext]
    · simp [read, Node.function?, Node.group?, Node.kind, hkind]
  | group kind source span children =>
    cases kind <;> simp [read, Node.function?, Node.group?, Node.text]

/-- A date expression is read by what its nodes show. -/
theorem read_congr {ns ms : List Node} (h : ns.map Node.view = ms.map Node.view)
    (reference : Instant) : read reference ns = read reference ms := by
  cases ns with
  | nil =>
    obtain rfl := List.map_eq_nil_iff.mp h.symm
    rfl
  | cons n ns =>
    obtain ⟨m, ms, rfl, hview, hrest⟩ := List.map_eq_cons_iff.mp h.symm
    have hkind : m.kind = n.kind := congrArg Node.View.kind hview
    have htext : m.text = n.text := congrArg Node.View.text hview
    have htoken : m.group?.isNone = n.group?.isNone := congrArg Node.View.isToken hview
    have hcall := Node.isSome_function?_congr hview
    have hshift : (fun t => shiftAll t ns) = fun t => shiftAll t ms :=
      funext fun t => shiftAll_congr hrest.symm t
    rw [read_cons, read_cons, hkind, htext, htoken, hcall, hshift, shiftAll_congr h]

end DateExpression

namespace TermReader

section
variable {ctx : Context}

private theorem readParam_congr {g g' : Group} {value : String} (h : g'.signature = g.signature)
    (hread : readParam ctx g = .ok value) : readParam ctx g' = .ok value := by
  have harguments := congrArg Prod.snd h
  unfold readParam at hread ⊢
  split at hread
  · cases hread
  next name hname =>
    simp only [Group.signature, hname, List.map_cons, List.map_nil, List.map_eq_singleton_iff,
      Prod.mk.injEq] at harguments
    obtain ⟨name', hname', hkind, hunescaped⟩ := harguments
    rw [hname']
    split at hread
    next hword =>
      rw [← hread, ← hunescaped]
      exact if_pos (hkind.trans hword)
    next => cases hread
  · cases hread

private theorem isParamCall_congr {g g' : Group} (h : g'.signature = g.signature) :
    isParamCall g' = isParamCall g := by
  have hname : g'.functionName? = g.functionName? := congrArg Prod.fst h
  rw [isParamCall, isParamCall, hname]

private theorem undatedCall?_congr {n m : Node} (h : n.view = m.view) :
    (undatedCall? n).map Group.signature = (undatedCall? m).map Group.signature := by
  have hcall : n.function?.map Group.signature = m.function?.map Group.signature :=
    congrArg Node.View.call h
  have htext : n.text = m.text := congrArg Node.View.text h
  unfold undatedCall?
  cases hn : n.function? with
  | none =>
    rw [hn, Option.map_none, eq_comm, Option.map_eq_none_iff] at hcall
    rw [hcall]
  | some g =>
    rw [hn, Option.map_some, eq_comm, Option.map_eq_some_iff] at hcall
    obtain ⟨g', hm, hsignature⟩ := hcall
    have hsame : g'.text = g.text := by
      rw [Node.function?_text hm, Node.function?_text hn, htext]
    rw [hm, Option.filter_some, Option.filter_some, isParamCall_congr hsignature, hsame]
    split
    · exact congrArg some hsignature.symm
    · rfl

private theorem isDated_congr {n m : Node} (h : n.view = m.view) : isDated n = isDated m := by
  have hkind : n.kind = m.kind := congrArg Node.View.kind h
  rw [isDated, isDated, hkind, Node.isSome_function?_congr h]

private theorem checkNumber_congr {ns ms : List Node} (h : ns.map Node.view = ms.map Node.view)
    {signed seen : Bool} (hread : checkNumber signed seen ns = .ok ()) :
    checkNumber signed seen ms = .ok () := by
  induction ns generalizing ms signed seen with
  | nil =>
    obtain rfl := List.map_eq_nil_iff.mp h.symm
    rfl
  | cons n ns ih =>
    obtain ⟨m, ms, rfl, hview, hrest⟩ := List.map_eq_cons_iff.mp h.symm
    have hkind : m.kind = n.kind := congrArg Node.View.kind hview
    unfold checkNumber at hread ⊢
    rw [hkind]
    split at hread
    next =>
      split at hread
      next => cases hread
      next hseen => exact (if_neg hseen).trans (ih hrest.symm hread)
    next =>
      split at hread
      next => cases hread
      next hsign => exact (if_neg hsign).trans (ih hrest.symm hread)
    next =>
      split at hread
      next => cases hread
      next hsign => exact (if_neg hsign).trans (ih hrest.symm hread)
    next => cases hread

/-- Nodes that look like two or more are two or more. -/
theorem two_of_views {ns ms : List Node} (h : ns.map Node.view = ms.map Node.view) {m extra : Node}
    {rest : List Node} (hms : ms = m :: extra :: rest) :
    ∃ n extra' rest', ns = n :: extra' :: rest' := by
  rw [hms] at h
  obtain ⟨n, tail, rfl, _, htail⟩ := List.map_eq_cons_iff.mp h
  obtain ⟨extra', rest', rfl, _⟩ := List.map_eq_cons_iff.mp htail
  exact ⟨n, extra', rest', rfl⟩

private theorem any_congr {ns ms : List Node} {test : Node → Bool}
    (h : ns.map Node.view = ms.map Node.view)
    (htest : ∀ n m : Node, n.view = m.view → test n = test m) : ns.any test = ms.any test := by
  induction ns generalizing ms with
  | nil =>
    obtain rfl := List.map_eq_nil_iff.mp h.symm
    rfl
  | cons n ns ih =>
    obtain ⟨m, ms, rfl, hview, hrest⟩ := List.map_eq_cons_iff.mp h.symm
    rw [List.any_cons, List.any_cons, htest n m hview.symm, ih hrest.symm]

private theorem checkLiteral_congr {ns ms : List Node} (h : ns.map Node.view = ms.map Node.view)
    (hdate : ctx.services.readDate = DateExpression.read)
    (hread : checkLiteral ctx ns = .ok ()) : checkLiteral ctx ms = .ok () := by
  have hdated : ms.any isDated = ns.any isDated := any_congr h.symm fun _ _ => isDated_congr
  have hnumber : ms.any (·.kind == .number) = ns.any (·.kind == .number) := by
    refine any_congr h.symm ?_
    intro n m hview
    exact congrArg (· == TokenKind.number) (congrArg Node.View.kind hview)
  unfold checkLiteral at hread ⊢
  rw [hdated, hnumber, hdate, DateExpression.read_congr h.symm, ← hdate]
  split at hread
  next hany =>
    rw [if_pos hany]
    split at hread
    next => rfl
    next => cases hread
  next hany =>
    rw [if_neg hany]
    split at hread
    next hnumber =>
      rw [if_pos hnumber]
      exact checkNumber_congr h hread
    next hnumber =>
      rw [if_neg hnumber]
      split at hread
      next => cases hread
      next hone =>
        split
        next =>
          obtain ⟨n, extra, rest, htwo⟩ := two_of_views h rfl
          exact absurd htwo (hone n extra rest)
        next => rfl

/-- The first call that names no point in time is found in the same place. -/
theorem findUndated_congr {ns ms : List Node} (h : ns.map Node.view = ms.map Node.view) :
    (ns.findSome? fun n => (undatedCall? n).map fun g => (n, g)).map (·.2.signature) =
      (ms.findSome? fun n => (undatedCall? n).map fun g => (n, g)).map (·.2.signature) := by
  induction ns generalizing ms with
  | nil =>
    obtain rfl := List.map_eq_nil_iff.mp h.symm
    rfl
  | cons n ns ih =>
    obtain ⟨m, ms, rfl, hview, hrest⟩ := List.map_eq_cons_iff.mp h.symm
    have hcall := undatedCall?_congr hview
    rw [List.findSome?_cons, List.findSome?_cons]
    cases hn : undatedCall? n with
    | none =>
      rw [hn, Option.map_none, Option.map_eq_none_iff] at hcall
      rw [hcall]
      exact ih hrest.symm
    | some g =>
      rw [hn, Option.map_some, Option.map_eq_some_iff] at hcall
      obtain ⟨g', hm, hsignature⟩ := hcall
      rw [hm]
      exact congrArg some hsignature.symm

/-- A value does not hang on where its nodes stand. -/
theorem readValue_congr {ns ms : List Node} {value : String}
    (h : ns.map Node.view = ms.map Node.view)
    (hdate : ctx.services.readDate = DateExpression.read)
    (hread : readValue ctx ns = .ok value) : readValue ctx ms = .ok value := by
  have hundated := findUndated_congr h
  unfold readValue at hread ⊢
  split at hread
  next n g hfound =>
    rw [hfound, Option.map_some, eq_comm, Option.map_eq_some_iff] at hundated
    obtain ⟨⟨m, g'⟩, hfound', hsignature⟩ := hundated
    rw [hfound']
    split at hread
    next hparam =>
      split at hread
      next => cases hread
      next hone =>
        simp only [isParamCall_congr hsignature, hparam, if_true]
        split
        next =>
          obtain ⟨n, extra, rest, htwo⟩ := two_of_views h rfl
          exact absurd htwo (hone n extra rest)
        next => exact readParam_congr hsignature hread
    next => cases hread
  next hnone =>
    rw [hnone, Option.map_none, eq_comm, Option.map_eq_none_iff] at hundated
    rw [hundated]
    obtain ⟨⟨⟩, hchecked, hvalue⟩ := bind_eq_ok.mp hread
    refine bind_eq_ok.mpr ⟨(), checkLiteral_congr h hdate hchecked, ?_⟩
    have hunescaped : ms.map (·.unescaped) = ns.map (·.unescaped) := by
      simpa [Function.comp_def, Node.view] using congrArg (List.map Node.View.unescaped) h.symm
    have hfold (xs : List Node) : xs.foldl (fun text n => text ++ n.unescaped) "" =
        (xs.map (·.unescaped)).foldl (· ++ ·) "" := List.foldl_map.symm
    rw [← hvalue, hfold, hfold, hunescaped]

end

end TermReader

end PipeQuery
