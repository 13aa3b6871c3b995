import PipeQuery.Proofs.Group.Moved

/-!
Nodes on their own: what is left of a node when the text around it is taken away. The node shows the
same, and the places in it are those in its own text.
-/
namespace PipeQuery

/-- A text is covered by the span from its first to its last byte. -/
theorem Text.slice_whole (s : String) : slice s ⟨0, byteLength s.toList⟩ = s := by
  have hparts : s.toList = [] ++ s.toList ++ [] := by rw [List.nil_append, List.append_nil]
  have hslice := slice_between hparts
  rwa [byteLength, Nat.zero_add, String.ofList_toList] at hslice

def Place.alone (p : Place) : Place := ⟨⟨0, Text.byteLength p.text.toList⟩, p.text⟩

/-- The token as the only one of its text. -/
def Token.alone (t : Token) : Token := ⟨t.kind, t.slice, ⟨0, Text.byteLength t.slice.toList⟩⟩

namespace Token

@[simp]
theorem kind_alone (t : Token) : t.alone.kind = t.kind := rfl

@[simp]
theorem slice_alone (t : Token) : t.alone.slice = t.slice := Text.slice_whole t.slice

@[simp]
theorem text_alone (t : Token) : t.alone.text = t.text := by
  rw [text, text, kind_alone, slice_alone]

@[simp]
theorem unescaped_alone (t : Token) : t.alone.unescaped = t.unescaped := by
  rw [unescaped, unescaped, kind_alone, slice_alone]

@[simp]
theorem place_alone (t : Token) : t.alone.place = t.place.alone := by
  rw [place, slice_alone]
  rfl

end Token

def GroupKind.alone : GroupKind → GroupKind
  | .root => .root
  | .bracket opening closing => .bracket opening.alone closing.alone
  | .function name opening closing => .function name.alone opening.alone closing.alone
  | .pipe bar command => .pipe bar.alone command.alone
  | .clause keyword => .clause keyword.alone

private theorem GroupKind.tokenKind_alone (k : GroupKind) : k.alone.tokenKind = k.tokenKind := by
  cases k with
  | _ => rfl

mutual

def Node.alone : Node → Node
  | .token t => .token t.alone
  | .group kind source span children =>
    .group kind.alone (Text.slice source span)
      ⟨0, Text.byteLength (Text.slice source span).toList⟩ (Node.aloneAll children)

def Node.aloneAll : List Node → List Node
  | [] => []
  | n :: ns => n.alone :: Node.aloneAll ns

end

def Group.alone (g : Group) : Group :=
  ⟨g.kind.alone, g.text, ⟨0, Text.byteLength g.text.toList⟩, g.children.map Node.alone⟩

namespace Node

private theorem aloneAll_eq_map (ns : List Node) : aloneAll ns = ns.map alone := by
  induction ns with
  | nil => rfl
  | cons n ns ih => rw [aloneAll, ih, List.map_cons]

theorem alone_group (kind : GroupKind) (source : String) (span : Span) (children : List Node) :
    (group kind source span children).alone =
      group kind.alone (Text.slice source span)
        ⟨0, Text.byteLength (Text.slice source span).toList⟩ (children.map alone) := by
  rw [alone, aloneAll_eq_map]

@[simp]
theorem kind_alone (n : Node) : n.alone.kind = n.kind := by
  cases n with
  | token t => rfl
  | group k source span children => exact k.tokenKind_alone

@[simp]
theorem text_alone (n : Node) : n.alone.text = n.text := by
  cases n with
  | token t => exact t.text_alone
  | group k source span children => exact Text.slice_whole _

@[simp]
theorem unescaped_alone (n : Node) : n.alone.unescaped = n.unescaped := by
  cases n with
  | token t => exact t.unescaped_alone
  | group k source span children => exact Text.slice_whole _

@[simp]
theorem isString_alone (n : Node) : n.alone.isString = n.isString := by
  rw [isString, isString, kind_alone]

private theorem group?_alone (n : Node) : n.alone.group? = n.group?.map Group.alone := by
  cases n with
  | token t => rfl
  | group k source span children =>
    rw [alone_group]
    rfl

theorem bracket?_alone (n : Node) : n.alone.bracket? = n.bracket?.map Group.alone := by
  cases n with
  | token t => rfl
  | group k source span children =>
    rw [alone_group]
    cases k with
    | _ => rfl

theorem function?_alone (n : Node) : n.alone.function? = n.function?.map Group.alone := by
  cases n with
  | token t => rfl
  | group k source span children =>
    rw [alone_group]
    cases k with
    | _ => rfl

end Node

theorem Group.functionName?_alone (g : Group) : g.alone.functionName? = g.functionName? := by
  obtain ⟨k, source, span, children⟩ := g
  cases k with
  | function name opening closing => exact congrArg some name.slice_alone
  | _ => rfl

private theorem Group.signature_alone (g : Group) : g.alone.signature = g.signature := by
  refine Prod.ext g.functionName?_alone ?_
  simp only [signature, alone, List.map_map, Function.comp_def, Node.kind_alone,
    Node.unescaped_alone]

/-- A node shows the same on its own. -/
theorem Node.view_alone (n : Node) : n.alone.view = n.view := by
  have hcall : n.alone.function?.map Group.signature = n.function?.map Group.signature := by
    simp only [function?_alone, Option.map_map, Function.comp_def, Group.signature_alone]
  simp only [view, group?_alone, Option.isNone_map, kind_alone, text_alone, unescaped_alone, hcall]

theorem Node.views_alone (ns : List Node) : (ns.map alone).map view = ns.map view := by
  simp only [List.map_map, Function.comp_def, view_alone]

end PipeQuery
