import PipeQuery.Proofs.Group.Acceptance
import PipeQuery.Proofs.Token.Context

/-!
Lexer and structure fit together. The lexer puts an open bracket after every function name and a
pipe before every command, so that structuring asks for no bracket in vain, and takes every token
that frames a group into the frame of one. The tokens that are left to the leaves are operands,
operators, separators and keywords.
-/
namespace PipeQuery

namespace Token
variable {tokens front back : List Token} {t : Token}

def PrecededBy (first second : TokenKind) (ts : List Token) : Prop :=
  ∀ front t back, ts = front ++ t :: back → t.kind = second →
    front.getLast?.map (·.kind) = some first

theorem PrecededBy.of_append {first second : TokenKind} {ts : List Token} (front : List Token)
    (h : PrecededBy first second (front ++ t :: ts)) (ht : t.kind ≠ first) :
    PrecededBy first second ts := by
  intro front' u back hts hu
  have hlast := h (front ++ t :: front') u back (by simp [hts]) hu
  rw [List.getLast?_append] at hlast
  cases front' with
  | nil =>
    rw [List.getLast?_singleton] at hlast
    exact absurd (Option.some.inj hlast) ht
  | cons v front' => simpa using hlast

theorem meaningful_append (ts us : List Token) :
    meaningful (ts ++ us) = meaningful ts ++ meaningful us :=
  List.filter_append ..

private theorem exists_of_meaningful_eq (h : meaningful tokens = front ++ t :: back) :
    ∃ front' back', tokens = front' ++ t :: back' ∧ meaningful front' = front ∧
      meaningful back' = back := by
  obtain ⟨before, rest, rfl, hbefore, hrest⟩ := List.filter_eq_append_iff.mp h
  obtain ⟨skipped, after, rfl, hskipped, -, hafter⟩ := List.filter_eq_cons_iff.mp hrest
  refine ⟨before ++ skipped, after, by simp, ?_, hafter⟩
  have hnil : skipped.filter (fun t => !t.kind.isIgnorable) = [] :=
    List.filter_eq_nil_iff.mpr hskipped
  rw [meaningful, List.filter_append, hbefore, hnil, List.append_nil]

private theorem meaningful_cons_of_kind {ts : List Token} (h : t.kind.isIgnorable = false) :
    meaningful (t :: ts) = t :: meaningful ts := by
  simp [meaningful, h]

end Token
open Token

namespace Lexer

private theorem followedBy_meaningful (text : String) :
    FollowedBy .functionName .openBracket (meaningful (tokens text)) := by
  intro front t back h ht
  obtain ⟨front', back', htokens, -, rfl⟩ := exists_of_meaningful_eq h
  obtain ⟨b, rest, rfl, hb, -⟩ := exists_bracket_of_tokens htokens ht
  rw [meaningful_cons_of_kind (by rw [hb]; rfl)]
  simp [hb]

private theorem precededBy_meaningful (text : String) :
    PrecededBy .pipe .command (meaningful (tokens text)) := by
  intro front t back h ht
  obtain ⟨front', back', htokens, rfl, -⟩ := exists_of_meaningful_eq h
  obtain ⟨far, bar, blanks, rfl, hbar, hblanks⟩ := exists_pipe_of_tokens htokens ht
  have hnil : meaningful blanks = [] := by
    apply List.filter_eq_nil_iff.mpr
    intro b hb
    simp [hblanks b hb, TokenKind.isIgnorable]
  have hsplit : meaningful (far ++ bar :: blanks) = meaningful far ++ [bar] := by
    rw [meaningful_append, meaningful_cons_of_kind (by rw [hbar]; rfl), hnil]
  rw [hsplit, List.getLast?_concat]
  exact congrArg some hbar

end Lexer

/-- Where function names have their brackets, reading never asks for one. -/
theorem Level.fault_of_read_eq_error {outer : List (Opening × Level)} {level : Level}
    {ts : List Token} {e : SyntaxError} (h : read outer level ts = .error e)
    (hf : FollowedBy .functionName .openBracket ts) :
    e.fault ∈ [.unclosedBracket, .closeWithoutOpen, .missingCommand] := by
  fun_induction read outer level ts with
  | case1 => cases h
  | case2 | case3 | case5 | case7 =>
    cases h
    simp
  | case4 level t ts ht opening around outer ih => exact ih h (followedBy_cons.mp hf).2
  | case6 outer level t ht c ts hc ih =>
    exact ih h (followedBy_cons.mp (followedBy_cons.mp hf).2).2
  | case8 outer level t ht => cases (followedBy_cons.mp hf).1 ht
  | case9 outer level t ht b ts hb ih =>
    exact ih h (followedBy_cons.mp (followedBy_cons.mp hf).2).2
  | case10 outer level t ht b ts hb =>
    have hbracket := (followedBy_cons.mp hf).1 ht
    exact absurd (Option.some.inj hbracket) hb
  | case11 outer level t ts ht ih | case12 level t ts c ht ih | case13 level t ts c ht _ _ ih
  | case14 outer level t ts _ _ _ _ _ ih => exact ih h (followedBy_cons.mp hf).2

mutual

/-- The tokens that are nodes of their own, in order. -/
def Node.leaves : Node → List Token
  | .token t => [t]
  | .group _ _ _ children => Node.leavesList children

def Node.leavesList : List Node → List Token
  | [] => []
  | n :: ns => n.leaves ++ Node.leavesList ns

end

def Group.leaves (g : Group) : List Token := Node.leavesList g.children

private theorem Node.leavesList_append (ms ns : List Node) :
    Node.leavesList (ms ++ ns) = Node.leavesList ms ++ Node.leavesList ns := by
  induction ms with
  | nil => rfl
  | cons m ms ih => simp [Node.leavesList, ih]

private theorem Opening.leaves_close (o : Opening) (closing : Token) (children : List Node) :
    (o.close closing children).leaves = Node.leavesList children := by
  cases o with
  | bracket opening => rfl
  | function name opening => rfl

def TokenKind.isFrame : TokenKind → Bool
  | .pipe | .command | .functionName | .openBracket | .closeBracket => true
  | _ => false

private theorem TokenKind.notMem_of_not_isFrame {kind : TokenKind} (hframe : kind.isFrame = false)
    (hignorable : kind.isIgnorable = false) (hunknown : kind ≠ .unknown) :
    kind ∉ [.pipe, .command, .functionName, .openBracket, .closeBracket, .whitespace, .comment,
      .blockComment, .unknown] := by
  cases kind <;> simp_all [isFrame, isIgnorable]

namespace Level

def leaves (l : Level) : List Token := Node.leavesList l.nodes

private theorem leaves_empty : leaves {} = [] := rfl

private theorem leaves_add (l : Level) (n : Node) : (l.add n).leaves = l.leaves ++ n.leaves := by
  obtain ⟨done, current⟩ := l
  cases current with
  | none => simp [leaves, add, nodes, Node.leavesList_append, Node.leavesList]
  | some c =>
    simp [leaves, add, nodes, Node.leavesList_append, Node.leavesList, OpenClause.close,
      Group.cover, Group.toNode, Node.leaves]

private theorem leaves_start (l : Level) (kind : GroupKind) (source : String) (span : Span) :
    (l.start ⟨kind, source, span, []⟩).leaves = l.leaves := by
  simp [leaves, start, nodes, Node.leavesList_append, Node.leavesList, OpenClause.close,
    Group.cover, Group.toNode, Node.leaves]

private theorem IsLeaf.isFrame {outer : List (Opening × Level)} {t : Token} (h : IsLeaf outer t)
    (hcommand : t.kind ≠ .command) : t.kind.isFrame = false := by
  obtain ⟨hclose, hopen, hpipe, hfunction, -⟩ := h
  unfold TokenKind.isFrame
  split <;> simp_all

/-- What holds of the leaves that are there before a reading, and of the tokens read that frame no
group, holds of all leaves after it. -/
theorem Reads.forall_leaves {outer : List (Opening × Level)} {level : Level} {ts : List Token}
    {ns : List Node} (h : Reads outer level ts ns) (hc : PrecededBy .pipe .command ts)
    {P : Token → Prop} (hlevel : ∀ t ∈ level.leaves, P t)
    (houter : ∀ o ∈ outer, ∀ t ∈ o.2.leaves, P t)
    (hts : ∀ t ∈ ts, t.kind.isFrame = false → P t) : ∀ t ∈ Node.leavesList ns, P t := by
  induction h with
  | done level => exact hlevel
  | @close opening around outer level u ts ns kind rest ih =>
    obtain ⟨haround, houter⟩ := List.forall_mem_cons.mp houter
    apply ih (hc.of_append [] (by simp [kind])) ?_ houter (List.forall_mem_cons.mp hts).2
    rw [leaves_add, Opening.leaves_close]
    exact List.forall_mem_append.mpr ⟨haround, hlevel⟩
  | @pipe outer level u c ts ns kind command rest ih =>
    apply ih (hc.of_append [u] (by simp [command])) ?_ houter
    · exact (List.forall_mem_cons.mp (List.forall_mem_cons.mp hts).2).2
    · rwa [leaves_start]
  | @function outer level u b ts ns kind bracket rest ih =>
    apply ih (hc.of_append [u] (by simp [bracket])) (by simp [leaves_empty])
    · exact List.forall_mem_cons.mpr ⟨hlevel, houter⟩
    · exact (List.forall_mem_cons.mp (List.forall_mem_cons.mp hts).2).2
  | @bracket outer level u ts ns kind rest ih =>
    apply ih (hc.of_append [] (by simp [kind])) (by simp [leaves_empty])
    · exact List.forall_mem_cons.mpr ⟨hlevel, houter⟩
    · exact (List.forall_mem_cons.mp hts).2
  | @clause level u ts ns kind rest ih =>
    have hpipe : u.kind ≠ .pipe := by
      intro hpipe
      rw [hpipe] at kind
      cases kind
    apply ih (hc.of_append [] hpipe) ?_ houter (List.forall_mem_cons.mp hts).2
    rwa [leaves_start]
  | @leaf outer level u ts ns leaf rest ih =>
    obtain ⟨hu, hts⟩ := List.forall_mem_cons.mp hts
    -- A command at the front would have no pipe before it.
    have hcommand : u.kind ≠ .command := by
      intro hu
      cases hc [] u ts rfl hu
    apply ih (hc.of_append [] leaf.not_pipe) ?_ houter hts
    rw [leaves_add]
    have hleaf : ∀ t ∈ [u], P t := List.forall_mem_singleton.mpr (hu (leaf.isFrame hcommand))
    exact List.forall_mem_append.mpr ⟨hlevel, hleaf⟩

end Level

namespace Group
variable {tokens : List Token}

private theorem fault_of_ofTokens_eq_error {e : SyntaxError} (h : ofTokens tokens = .error e)
    (hf : FollowedBy .functionName .openBracket (meaningful tokens)) :
    e.fault ∈ [.unclosedBracket, .closeWithoutOpen, .missingCommand] := by
  rw [ofTokens_eq] at h
  cases hread : Level.read [] {} (meaningful tokens) with
  | ok ns =>
    rw [hread] at h
    cases h
  | error e' =>
    rw [hread] at h
    cases h
    exact Level.fault_of_read_eq_error hread hf

private theorem message_ne_of_mem {f : Fault}
    (h : f ∈ [.unclosedBracket, .closeWithoutOpen, .missingCommand]) :
    f.message ≠ Fault.missingOpenBracket.message := by
  simp only [List.mem_cons, List.not_mem_nil, or_false] at h
  rcases h with rfl | rfl | rfl <;> decide

private theorem of_mem_leaves {root : Group} (h : ofTokens tokens = .ok root)
    (hc : PrecededBy .pipe .command (meaningful tokens)) {t : Token} (ht : t ∈ root.leaves) :
    t ∈ meaningful tokens ∧ t.kind.isFrame = false := by
  obtain ⟨ns, hreads, rfl⟩ := reads_of_ofTokens h
  apply hreads.forall_leaves hc (by simp [Level.leaves_empty]) (by simp) ?_ t ht
  intro u hu hframe
  exact ⟨hu, hframe⟩

/-- Every function name of a text has its open bracket directly after it, and every command its pipe
before it, with nothing but blanks in between. So structuring refuses no text for a function name
without a bracket, and a leaf is never a token that frames groups, that means nothing or that is
not classified. -/
theorem tokens_fit_structure (text : String) :
    (∀ front t back, Lexer.tokens text = front ++ t :: back →
      (t.kind = .functionName →
        ∃ b rest, back = b :: rest ∧ b.kind = .openBracket ∧ b.span.start = t.span.stop) ∧
      (t.kind = .command → ∃ far bar blanks, front = far ++ bar :: blanks ∧ bar.kind = .pipe ∧
        ∀ b ∈ blanks, b.kind = .whitespace)) ∧
    (∀ e, ofTokens (Lexer.tokens text) = .error e →
      e.fault ∈ [.unclosedBracket, .closeWithoutOpen, .missingCommand] ∧
        e.fault.message ≠ "Expected open bracket after function name") ∧
    ∀ root, ofTokens (Lexer.tokens text) = .ok root → ∀ t ∈ root.leaves,
      t ∈ Lexer.tokens text ∧
        t.kind ∉ [.pipe, .command, .functionName, .openBracket, .closeBracket, .whitespace,
          .comment, .blockComment, .unknown] := by
  refine ⟨?_, ?_, ?_⟩
  · intro front t back h
    exact ⟨Lexer.exists_bracket_of_tokens h, Lexer.exists_pipe_of_tokens h⟩
  · intro e h
    have hfault := fault_of_ofTokens_eq_error h (Lexer.followedBy_meaningful text)
    exact ⟨hfault, message_ne_of_mem hfault⟩
  · intro root h t ht
    obtain ⟨hmem, hframe⟩ := of_mem_leaves h (Lexer.precededBy_meaningful text) ht
    obtain ⟨hmem, hignorable⟩ := List.mem_filter.mp hmem
    have hunknown := Lexer.kind_ne_unknown_of_mem_tokens hmem
    rw [Bool.not_eq_true'] at hignorable
    exact ⟨hmem, TokenKind.notMem_of_not_isFrame hframe hignorable hunknown⟩

def pipedText : String := "a| w f(b)//"

theorem tokens_fit_structure_sample :
    let tokens := Lexer.tokens pipedText
    (∃ far bar blanks, tokens.take 3 = far ++ bar :: blanks ∧ bar.kind = .pipe ∧
      ∀ b ∈ blanks, b.kind = .whitespace) ∧
    (∃ b rest, tokens.drop 6 = b :: rest ∧ b.kind = .openBracket ∧ b.span.start = 6) ∧
    ∃ root, ofTokens tokens = .ok root ∧ root.leaves.map (·.slice) = ["a", "b"] ∧
      ∀ t ∈ root.leaves, t ∈ tokens ∧
        t.kind ∉ [.pipe, .command, .functionName, .openBracket, .closeBracket, .whitespace,
          .comment, .blockComment, .unknown] := by
  obtain ⟨hnames, -, hleaves⟩ := tokens_fit_structure pipedText
  have hcommand : Lexer.tokens pipedText = (Lexer.tokens pipedText).take 3 ++
      ⟨.command, pipedText, ⟨3, 4⟩⟩ :: (Lexer.tokens pipedText).drop 4 := by decide +kernel
  have hname : Lexer.tokens pipedText = (Lexer.tokens pipedText).take 5 ++
      ⟨.functionName, pipedText, ⟨5, 6⟩⟩ :: (Lexer.tokens pipedText).drop 6 := by decide +kernel
  have hslices : (ofTokens (Lexer.tokens pipedText)).toOption.map
      (fun root => root.leaves.map (·.slice)) = some ["a", "b"] := by decide +kernel
  refine ⟨(hnames _ _ _ hcommand).2 rfl, (hnames _ _ _ hname).1 rfl, ?_⟩
  cases h : ofTokens (Lexer.tokens pipedText) with
  | error e =>
    rw [h] at hslices
    cases hslices
  | ok root =>
    rw [h] at hslices
    exact ⟨root, rfl, Option.some.inj hslices, hleaves root h⟩

end Group

end PipeQuery
