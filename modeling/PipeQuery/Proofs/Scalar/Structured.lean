import PipeQuery.Proofs.Group.Flatten
import PipeQuery.Proofs.Scalar.Grammar
import PipeQuery.Proofs.Token.Partition

/-!
Texts of tokens that stand for expressions, whatever level the tokens are read in.
-/
namespace PipeQuery

namespace Level

/-- The tokens add the nodes to whatever level they are read in. -/
def Builds (ts : List Token) (nodes : List Node) : Prop :=
  ∀ outer level rest, read outer level (Token.meaningful ts ++ rest) =
    read outer (nodes.foldl add level) rest

section
variable {ts us : List Token} {ns ms : List Node} {t o c : Token}

private theorem read_leaf (outer : List (Opening × Level)) (level : Level) (ts : List Token)
    (h : t.kind.isOperand ∨ (BinaryOp.ofKind? t.kind).isSome ∨ t.kind = .comma) :
    read outer level (t :: ts) = read outer (level.add (.token t)) ts := by
  rw [read.eq_def]
  cases hk : t.kind <;> simp_all [TokenKind.isOperand, BinaryOp.ofKind?]

theorem read_open (outer : List (Opening × Level)) (level : Level) (ts : List Token)
    (h : o.kind = .openBracket) :
    read outer level (o :: ts) = read ((.bracket o, level) :: outer) {} ts := by
  rw [read.eq_def]
  simp [h]

theorem read_call (outer : List (Opening × Level)) (level : Level) (ts : List Token)
    (ht : t.kind = .functionName) (ho : o.kind = .openBracket) :
    read outer level (t :: o :: ts) = read ((.function t o, level) :: outer) {} ts := by
  rw [read.eq_def]
  simp [ht, ho]

theorem read_close (opening : Opening) (around : Level) (outer : List (Opening × Level))
    (level : Level) (ts : List Token) (h : c.kind = .closeBracket) :
    read ((opening, around) :: outer) level (c :: ts) =
      read outer (around.add (opening.close c level.nodes)) ts := by
  rw [read.eq_def]
  simp [h]

theorem nodes_foldl_add (ns done : List Node) : (ns.foldl add ⟨done, none⟩).nodes = done ++ ns := by
  induction ns generalizing done with
  | nil => simp [nodes]
  | cons n ns ih => rw [List.foldl_cons, add, ih, List.append_assoc, List.singleton_append]

private theorem builds_ignorable (h : t.kind.isIgnorable) : Builds [t] [] := by
  intro outer level rest
  simp [Token.meaningful, h]

private theorem builds_token
    (h : t.kind.isOperand ∨ (BinaryOp.ofKind? t.kind).isSome ∨ t.kind = .comma) :
    Builds [t] [.token t] := by
  intro outer level rest
  have hmeaningful : Token.meaningful [t] = [t] := by
    cases hk : t.kind <;>
      simp_all [Token.meaningful, TokenKind.isOperand, TokenKind.isIgnorable, BinaryOp.ofKind?]
  rw [hmeaningful, List.singleton_append, read_leaf _ _ _ h]
  rfl

theorem Builds.append (hts : Builds ts ns) (hus : Builds us ms) : Builds (ts ++ us) (ns ++ ms) := by
  intro outer level rest
  rw [Token.meaningful, List.filter_append, ← Token.meaningful, ← Token.meaningful,
    List.append_assoc, hts, hus, List.foldl_append]

theorem Builds.bracket (hts : Builds ts ns) (ho : o.kind = .openBracket)
    (hc : c.kind = .closeBracket) :
    Builds (o :: (ts ++ [c])) [(Opening.bracket o).close c ns] := by
  intro outer level rest
  have hmeaningful : Token.meaningful (o :: (ts ++ [c])) = o :: (Token.meaningful ts ++ [c]) := by
    simp [Token.meaningful, ho, hc, TokenKind.isIgnorable]
  rw [hmeaningful, List.cons_append, List.append_assoc, read_open _ _ _ ho, hts,
    List.singleton_append, read_close _ _ _ _ _ hc, nodes_foldl_add, List.nil_append]
  rfl

theorem Builds.call (hts : Builds ts ns) (ht : t.kind = .functionName) (ho : o.kind = .openBracket)
    (hc : c.kind = .closeBracket) :
    Builds (t :: o :: (ts ++ [c])) [(Opening.function t o).close c ns] := by
  intro outer level rest
  have hmeaningful :
      Token.meaningful (t :: o :: (ts ++ [c])) = t :: o :: (Token.meaningful ts ++ [c]) := by
    simp [Token.meaningful, ht, ho, hc, TokenKind.isIgnorable]
  rw [hmeaningful, List.cons_append, List.cons_append, List.append_assoc, read_call _ _ _ ht ho,
    hts, List.singleton_append, read_close _ _ _ _ _ hc, nodes_foldl_add, List.nil_append]
  rfl

theorem Builds.ofTokens (h : Builds ts ns) :
    ∃ root, Group.ofTokens ts = .ok root ∧ root.children = ns := by
  have hread := h [] {} []
  rw [List.append_nil, read, nodes_foldl_add, List.nil_append] at hread
  rw [Group.ofTokens_eq, hread]
  exact ⟨_, rfl, rfl⟩

end

end Level

def Token.piece (t : Token) : Piece := ⟨t.kind, t.slice.toList⟩

private theorem Token.map_piece_eq {ts : List Token} {ps : List Piece}
    (hkinds : ts.map (·.kind) = ps.map (·.kind))
    (hslices : ts.map (·.slice) = ps.map fun p => String.ofList p.chars) : ts.map piece = ps := by
  induction ts generalizing ps with
  | nil => simp_all
  | cons t ts ih =>
    cases ps with
    | nil => simp at hkinds
    | cons p ps =>
      simp only [List.map_cons, List.cons.injEq] at hkinds hslices ⊢
      refine ⟨?_, ih hkinds.2 hslices.2⟩
      rw [piece, hkinds.1, hslices.1, String.toList_ofList]

theorem Lexer.map_piece_layout {source : String} {ps : List Piece}
    (h : Piece.spell ps = source.toList) : (layout source 0 ps).map Token.piece = ps := by
  have hslices : (layout source 0 ps).map (·.slice) = ps.map fun p => String.ofList p.chars :=
    slices_layout (by rw [h, List.nil_append])
  exact Token.map_piece_eq (kinds_layout 0) hslices

/-- A quote in a literal is read back. -/
theorem Quoted.unescape_escape {value : List Char} (h : '\\' ∉ value) :
    unescape ('\'' :: (value.flatMap Expr.escapeQuote ++ ['\''])) = value := by
  rw [unescape]
  induction value with
  | nil => simp [unescapeBody]
  | cons c value ih =>
    have hc : c ≠ '\\' := fun heq => h (by simp [heq])
    have hvalue := ih fun hmem => h (List.mem_cons_of_mem c hmem)
    rw [List.flatMap_cons, List.append_assoc, Expr.escapeQuote]
    split
    next heq => simp only [List.cons_append, List.nil_append, unescapeBody, hvalue, heq]
    next hq =>
      simp only [List.cons_append, List.nil_append]
      rw [unescapeBody.eq_4 _ _ _ (by grind) (by grind), if_neg hq, hvalue]

namespace Scalar

private theorem dropParamStart_eq_self {cs : List Char} (h : ¬['$', '\x7b'] <+: cs) :
    dropParamStart cs = cs := by
  unfold dropParamStart
  split
  next cs => exact absurd (by simp) h
  next => rfl

private theorem paramName_eq {slice name : String}
    (hslice : slice.toList = '$' :: '\x7b' :: (name.toList ++ ['\x7d']))
    (hbrace : '\x7d' ∉ name.toList) (hstart : ¬['$', '\x7b'] <+: name.toList) :
    paramName slice = name := by
  have hdrop : dropParamStart (name.toList ++ ['\x7d']) = name.toList ++ ['\x7d'] := by
    refine dropParamStart_eq_self fun hprefix => ?_
    rcases List.prefix_concat_iff.mp hprefix with heq | hprefix
    · simpa using congrArg List.getLast? heq
    · exact hstart hprefix
  have hname : (name.toList ++ ['\x7d']).reverse.dropWhile (· == '\x7d') = name.toList.reverse := by
    rw [List.reverse_concat, List.dropWhile_cons_of_pos (by simp)]
    cases hrev : name.toList.reverse with
    | nil => rfl
    | cons c cs =>
      have hc : c ≠ '\x7d' := by
        rintro rfl
        exact hbrace (List.mem_reverse.mp (by simp [hrev]))
      simp [hc]
  rw [paramName, hslice, dropParamStart, hdrop, hname, List.reverse_reverse, String.ofList_toList]

end Scalar

open Scalar (Form Written)

/-- Tokens with these texts are structured into nodes that stand for the form. -/
def Stands (f : Form) (ps : List Piece) : Prop :=
  ∀ ts : List Token, ts.map Token.piece = ps →
    ∃ nodes, Level.Builds ts nodes ∧ Written {} f nodes

namespace Stands
variable {e l r : Expr} {args : List Expr} {ps qs : List Piece}

theorem token {p : Piece} {f : Form} (hkind : p.kind.isOperand)
    (hw : ∀ t : Token, t.piece = p → Written {} f [.token t]) : Stands f [p] := by
  intro ts hts
  obtain ⟨t, rfl, rfl⟩ := List.map_eq_singleton_iff.mp hts
  exact ⟨[.token t], Level.builds_token (.inl hkind), hw t rfl⟩

theorem field {name : String} (hbrace : '\x7d' ∉ name.toList)
    (hstart : ¬['$', '\x7b'] <+: name.toList) :
    Stands (.primary (.field name)) [⟨.param, '$' :: '\x7b' :: (name.toList ++ ['\x7d'])⟩] := by
  refine token rfl fun t ht => ?_
  have hkind : t.kind = .param := congrArg Piece.kind ht
  have hslice := congrArg Piece.chars ht
  have hw : Written {} (.primary (Scalar.named {} (Scalar.paramName t.slice))) [.token t] :=
    .param hkind
  rwa [Scalar.paramName_eq hslice hbrace hstart] at hw

theorem text {value : String} (hbackslash : '\\' ∉ value.toList) :
    Stands (.primary (.text value))
      [⟨.singleQuoted, '\'' :: (value.toList.flatMap Expr.escapeQuote ++ ['\''])⟩] := by
  refine token rfl fun t ht => ?_
  have hkind : t.kind = .singleQuoted := congrArg Piece.kind ht
  have hslice : t.slice.toList = _ := congrArg Piece.chars ht
  have hunescaped : t.unescaped = value := by
    rw [Token.unescaped, hkind, hslice, Quoted.unescape_escape hbackslash, String.ofList_toList]
    rfl
  rw [← hunescaped]
  exact .quoted (by rw [hkind]; rfl)

theorem number (written : String) :
    Stands (.primary (.number written)) [⟨.number, written.toList⟩] := by
  refine token rfl fun t ht => ?_
  have hslice : t.slice = written := String.toList_inj.mp (congrArg Piece.chars ht)
  rw [← hslice]
  exact .number (congrArg Piece.kind ht)

theorem operand (h : Stands (.primary e) ps) : Stands (.operand e) ps := by
  intro ts hts
  obtain ⟨nodes, hbuilds, hw⟩ := h ts hts
  exact ⟨nodes, hbuilds, .unsigned hw⟩

theorem expression (h : Stands (.operand e) ps) : Stands (.expression e) ps := by
  intro ts hts
  obtain ⟨nodes, hbuilds, hw⟩ := h ts hts
  exact ⟨nodes, hbuilds, .tree (.operand e) (.first hw)⟩

/-- An expression in brackets is an operand. -/
theorem bracket (h : Stands (.expression e) ps) :
    Stands (.primary e) (⟨.openBracket, ['(']⟩ :: (ps ++ [⟨.closeBracket, [')']⟩])) := by
  intro ts hts
  obtain ⟨o, ts, rfl, ho, hts⟩ := List.map_eq_cons_iff.mp hts
  obtain ⟨ts, cs, rfl, hinside, hcs⟩ := List.map_eq_append_iff.mp hts
  obtain ⟨c, rfl, hc⟩ := List.map_eq_singleton_iff.mp hcs
  obtain ⟨nodes, hbuilds, hw⟩ := h ts hinside
  exact ⟨_, hbuilds.bracket (congrArg Piece.kind ho) (congrArg Piece.kind hc), .bracket rfl hw⟩

theorem call {name : String} (h : Stands (.arguments args) ps) :
    Stands (.primary (.call name args))
      (⟨.functionName, name.toList⟩ :: ⟨.openBracket, ['(']⟩ ::
        (ps ++ [⟨.closeBracket, [')']⟩])) := by
  intro ts hts
  obtain ⟨t, ts, rfl, ht, hts⟩ := List.map_eq_cons_iff.mp hts
  obtain ⟨o, ts, rfl, ho, hts⟩ := List.map_eq_cons_iff.mp hts
  obtain ⟨ts, cs, rfl, hinside, hcs⟩ := List.map_eq_append_iff.mp hts
  obtain ⟨c, rfl, hc⟩ := List.map_eq_singleton_iff.mp hcs
  obtain ⟨nodes, hbuilds, hw⟩ := h ts hinside
  have hslice : t.slice = name := String.toList_inj.mp (congrArg Piece.chars ht)
  refine ⟨_, hbuilds.call (congrArg Piece.kind ht) (congrArg Piece.kind ho) (congrArg Piece.kind hc),
    ?_⟩
  rw [← hslice]
  exact .call hw

theorem emptyCall (name : String) :
    Stands (.primary (.call name []))
      [⟨.functionName, name.toList⟩, ⟨.openBracket, ['(']⟩, ⟨.closeBracket, [')']⟩] := by
  intro ts hts
  obtain ⟨t, ts, rfl, ht, hts⟩ := List.map_eq_cons_iff.mp hts
  obtain ⟨o, ts, rfl, ho, hts⟩ := List.map_eq_cons_iff.mp hts
  obtain ⟨c, rfl, hc⟩ := List.map_eq_singleton_iff.mp hts
  have hslice : t.slice = name := String.toList_inj.mp (congrArg Piece.chars ht)
  have hbuilds : Level.Builds [] [] := fun _ _ _ => rfl
  refine ⟨_, hbuilds.call (congrArg Piece.kind ht) (congrArg Piece.kind ho) (congrArg Piece.kind hc),
    ?_⟩
  rw [← hslice]
  exact .emptyCall _ _ _ _ _

theorem negate (h : Stands (.operand e) ps) :
    Stands (.operand (.negate e)) (⟨.arith .subtract, ['-']⟩ :: ps) := by
  intro ts hts
  obtain ⟨t, ts, rfl, ht, hts⟩ := List.map_eq_cons_iff.mp hts
  obtain ⟨nodes, hbuilds, hw⟩ := h ts hts
  have hkind : t.kind = .arith .subtract := congrArg Piece.kind ht
  have hsign : Level.Builds [t] [.token t] :=
    Level.builds_token (.inr (.inl (by rw [hkind]; rfl)))
  exact ⟨_, hsign.append hbuilds, .minus hkind hw⟩

theorem blank_cons {f : Form} (h : Stands f ps) : Stands f (⟨.whitespace, [' ']⟩ :: ps) := by
  intro ts hts
  obtain ⟨t, ts, rfl, ht, hts⟩ := List.map_eq_cons_iff.mp hts
  obtain ⟨nodes, hbuilds, hw⟩ := h ts hts
  have hkind : t.kind = .whitespace := congrArg Piece.kind ht
  have hblank := Level.builds_ignorable (t := t) (by rw [hkind]; rfl)
  exact ⟨_, hblank.append hbuilds, hw⟩

theorem binary {op : BinaryOp} {p : Piece} (hop : BinaryOp.ofKind? p.kind = some op)
    (hl : Stands (.operand l) ps) (hr : Stands (.operand r) qs) :
    Stands (.expression (.binary op l r)) (ps ++ ⟨.whitespace, [' ']⟩ :: p :: qs) := by
  intro ts hts
  obtain ⟨ls, ts, rfl, hls, hts⟩ := List.map_eq_append_iff.mp hts
  obtain ⟨b, ts, rfl, hb, hts⟩ := List.map_eq_cons_iff.mp hts
  obtain ⟨t, rs, rfl, ht, hrs⟩ := List.map_eq_cons_iff.mp hts
  obtain ⟨ns, hleft, hwl⟩ := hl ls hls
  obtain ⟨ms, hright, hwr⟩ := hr rs hrs
  have hspace : b.kind = .whitespace := congrArg Piece.kind hb
  have hblank := Level.builds_ignorable (t := b) (by rw [hspace]; rfl)
  have hkind : BinaryOp.ofKind? t.kind = some op := by rw [← hop, ← ht]; rfl
  have htoken : Level.Builds [t] [.token t] :=
    Level.builds_token (.inr (.inl (by rw [hkind]; rfl)))
  refine ⟨_, hleft.append (hblank.append (htoken.append hright)), ?_⟩
  have hordered : (OpTree.node op (.operand l) (.operand r)).Ordered :=
    .node nofun nofun (.operand l) (.operand r)
  exact .tree hordered (.next (.first hwl) hkind hwr)

theorem lastArgument (h : Stands (.expression e) ps) : Stands (.arguments [e]) ps := by
  intro ts hts
  obtain ⟨nodes, hbuilds, hw⟩ := h ts hts
  exact ⟨nodes, hbuilds, .lastArgument hw⟩

theorem moreArguments (h : Stands (.expression e) ps) (hargs : Stands (.arguments args) qs) :
    Stands (.arguments (e :: args)) (ps ++ ⟨.comma, [',']⟩ :: qs) := by
  intro ts hts
  obtain ⟨ts, us, rfl, hfirst, hus⟩ := List.map_eq_append_iff.mp hts
  obtain ⟨t, us, rfl, ht, hrest⟩ := List.map_eq_cons_iff.mp hus
  obtain ⟨ns, hbuilds, hw⟩ := h ts hfirst
  obtain ⟨ms, hbuilds', hw'⟩ := hargs us hrest
  have hkind : t.kind = .comma := congrArg Piece.kind ht
  have hcomma : Level.Builds [t] [.token t] :=
    Level.builds_token (.inr (.inr hkind))
  exact ⟨_, hbuilds.append (hcomma.append hbuilds'), .moreArguments hw hkind hw'⟩

end Stands

end PipeQuery
