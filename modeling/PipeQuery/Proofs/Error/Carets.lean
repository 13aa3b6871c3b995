import PipeQuery.Listing
import PipeQuery.Proofs.Error.Compile
import PipeQuery.Proofs.Token.NullTest

/-!
Where carets stand. Places of errors are counted in bytes of the whole query, and carets in
characters of one line. Below the line in which an error starts, the carets mark what the line has
of the error, and this is never nothing.
-/
namespace PipeQuery

namespace Text

/-- The characters are a whole line of the text. They have no line feed, and on both sides they
reach to a line feed or to the end of the text. -/
structure IsLine (text front line back : List Char) : Prop where
  spells : text = front ++ line ++ back
  unbroken : '\n' ∉ line
  opens : front = [] ∨ front.getLast? = some '\n'
  closes : back = [] ∨ back.head? = some '\n'

def firstLine (cs : List Char) : List Char := cs.takeWhile (· != '\n')

def lastLine (cs : List Char) : List Char := (firstLine cs.reverse).reverse

private theorem unbroken_firstLine (cs : List Char) : '\n' ∉ firstLine cs := by
  intro hmem
  have hne := List.all_eq_true.mp List.all_takeWhile _ hmem
  cases hne

private theorem firstLine_append {line : List Char} (h : '\n' ∉ line) (cs : List Char) :
    firstLine (line ++ cs) = line ++ firstLine cs := by
  apply List.takeWhile_append_of_pos
  intro c hc
  rw [bne_iff_ne]
  rintro rfl
  exact h hc

/-- A line ends at a line feed or at the end. -/
theorem exists_firstLine_append (cs : List Char) :
    ∃ back, cs = firstLine cs ++ back ∧ (back = [] ∨ back.head? = some '\n') := by
  induction cs with
  | nil => exact ⟨[], rfl, .inl rfl⟩
  | cons c cs ih =>
    by_cases hc : c = '\n'
    · subst hc
      exact ⟨'\n' :: cs, rfl, .inr rfl⟩
    · obtain ⟨back, hcs, hback⟩ := ih
      have hline : firstLine (c :: cs) = c :: firstLine cs :=
        firstLine_append (mt List.mem_singleton.mp (Ne.symm hc)) cs
      refine ⟨back, ?_, hback⟩
      rw [hline, List.cons_append, ← hcs]

/-- The line around a position is made of the last line before it and the first line after it. -/
theorem exists_isLine (before after : List Char) :
    ∃ front back, before = front ++ lastLine before ∧
      IsLine (before ++ after) front (lastLine before ++ firstLine after) back := by
  obtain ⟨front, hbefore, hfront⟩ := exists_firstLine_append before.reverse
  obtain ⟨back, hafter, hback⟩ := exists_firstLine_append after
  have hsplit : before = front.reverse ++ lastLine before := by
    rw [lastLine, ← List.reverse_append, ← hbefore, List.reverse_reverse]
  refine ⟨front.reverse, back, hsplit, ?_, ?_, ?_, hback⟩
  · rw [← List.append_assoc, ← hsplit, List.append_assoc, ← hafter]
  · rw [List.mem_append, lastLine, List.mem_reverse]
    rintro (hmem | hmem)
    · exact unbroken_firstLine _ hmem
    · exact unbroken_firstLine _ hmem
  · rwa [List.reverse_eq_nil_iff, List.getLast?_reverse]

/-- A line starts with the first line of what starts there, which may end on the line or go on after
it. -/
theorem exists_firstLine_of_append (mid after : List Char) :
    ∃ rest, firstLine (mid ++ after) = firstLine mid ++ rest ∧
      min (byteLength mid) (byteLength (firstLine (mid ++ after))) =
        byteLength (firstLine mid) := by
  obtain ⟨back, hmid, hback⟩ := exists_firstLine_append mid
  have hline : firstLine (mid ++ after) = firstLine mid ++ firstLine (back ++ after) := by
    rw [← firstLine_append (unbroken_firstLine mid), ← List.append_assoc, ← hmid]
  have hlength : byteLength mid = byteLength (firstLine mid) + byteLength back := by
    rw [← byteLength_append, ← hmid]
  refine ⟨_, hline, ?_⟩
  rw [hline, hlength, byteLength_append]
  rcases hback with rfl | hback
  · simp only [byteLength]
    omega
  · obtain ⟨back, rfl⟩ := List.head?_eq_some_iff.mp hback
    have hnone : firstLine ('\n' :: back ++ after) = [] := rfl
    rw [hnone, byteLength]
    omega

end Text

/-- Carets below what a query has between a front and a back part. -/
theorem Listing.carets_eq {query : String} {before mid after : List Char}
    (h : query.toList = before ++ (mid ++ after)) (hmid : Text.firstLine mid ≠ []) :
    carets query ⟨Text.byteLength before, Text.byteLength (before ++ mid)⟩ =
      ["  " ++ String.ofList (Text.lastLine before ++ Text.firstLine (mid ++ after)),
        "  " ++ copies (Text.lastLine before).length ' ' ++
          copies (Text.firstLine mid).length '^'] := by
  obtain ⟨rest, hline, hbytes⟩ := Text.exists_firstLine_of_append mid after
  have hcut : Text.cut? (min (Text.byteLength (before ++ mid) - Text.byteLength before)
      (Text.byteLength (Text.firstLine (mid ++ after)))) (Text.firstLine (mid ++ after)) =
        some (Text.firstLine mid, rest) := by
    rw [Text.byteLength_append, Nat.add_sub_cancel_left, hbytes, hline, Text.cut?_byteLength]
  have hwidth : max 1 (Text.firstLine mid).length = (Text.firstLine mid).length :=
    Nat.max_eq_right (List.length_pos_iff.mpr hmid)
  have hleft : (before.reverse.takeWhile (· != '\n')).reverse = Text.lastLine before := rfl
  have hright : (mid ++ after).takeWhile (· != '\n') = Text.firstLine (mid ++ after) := rfl
  simp only [carets, h, Text.cut?_byteLength, hleft, hright, hcut, hwidth, String.ofList_append,
    String.append_assoc]

namespace Span.Points
variable {text : String} {s : Span}

/-- What the span covers, between the characters before it and those after it. -/
theorem exists_chars (h : s.Points text) :
    ∃ before after, text.toList = before ++ ((Text.slice text s).toList ++ after) ∧
      Text.byteLength before = s.start ∧
      Text.byteLength (before ++ (Text.slice text s).toList) = s.stop := by
  obtain ⟨front, back, htext, hstart, hstop⟩ := h.exists_append
  refine ⟨front.toList, back.toList, ?_, ?_, ?_⟩
  · rw [← String.toList_append, ← String.toList_append, ← String.append_assoc, ← htext]
  · rw [Text.byteLength_toList, hstart]
  · rw [← String.toList_append, Text.byteLength_toList, hstop]

/-- It does not start with a blank, since it starts where a token does. -/
theorem exists_head (h : s.Points text) :
    ∃ c, (Text.slice text s).toList.head? = some c ∧ Text.isBlank c = false := by
  obtain ⟨t, ht, hst⟩ := h.starts
  obtain ⟨hmem, hmeans⟩ := List.mem_filter.mp ht
  obtain ⟨hsource, hpoints⟩ := Lexer.placed_of_mem_meaningful ht
  obtain ⟨p, hp, hkind, hslice⟩ := exists_of_forall₂ (Lexer.places_tokens text) hmem
  have hsound := Lexer.sound_of_mem_pieces hp
  obtain ⟨c, chars, hchars⟩ := List.exists_cons_of_ne_nil hsound.nonempty
  have hblank : Text.isBlank c = false := by
    refine hsound.starts ?_ (by rw [hchars, List.head?_cons])
    intro hspace
    rw [hkind, hspace] at hmeans
    cases hmeans
  have hshown : (Text.slice text t.span).toList = c :: chars := by
    rw [← hsource, ← Token.slice, hslice, hchars, String.toList_ofList]
  obtain ⟨before, after, htext, hstart, hstop⟩ := h.exists_chars
  obtain ⟨before', after', htext', hstart', -⟩ := hpoints.exists_chars
  -- The token and the span are cut off at one position, so that the same text follows.
  have hrest : (Text.slice text s).toList ++ after = c :: (chars ++ after') := by
    have hcut := Text.cut?_byteLength before ((Text.slice text s).toList ++ after)
    rw [← htext, hstart, ← hst, ← hstart', htext', Text.cut?_byteLength, hshown] at hcut
    exact (Prod.mk.inj (Option.some.inj hcut)).2.symm
  have hne : (Text.slice text s).toList ≠ [] := by
    intro hnil
    have hlt := h.nonempty
    rw [hnil, List.append_nil, hstart] at hstop
    omega
  obtain ⟨d, ds, hds⟩ := List.exists_cons_of_ne_nil hne
  rw [hds] at hrest
  obtain ⟨rfl, -⟩ := List.cons.inj hrest
  exact ⟨d, by rw [hds, List.head?_cons], hblank⟩

end Span.Points

/-- An error at a place prints the whole line in which the place starts. The carets below it start
at the column of the place, and above them is what the place shows, up to its first line feed. -/
theorem compile_error_carets (catalog : Catalog) (request : BaseRequest) (reference : Instant)
    {text : String} {e : SyntaxError} {p : Place}
    (h : compile ⟨.ofCatalog catalog, request, reference⟩ text = .error (.rejected e))
    (hp : e.place = some p) :
    ∃ front line back column, Text.IsLine text.toList front line back ∧
      Text.byteLength (front ++ line.take column) = p.span.start ∧
      Text.firstLine p.text.toList ≠ [] ∧
      (line.drop column).take (Text.firstLine p.text.toList).length =
        Text.firstLine p.text.toList ∧
      Listing.error text e =
        ["Error: " ++ e.message, "  " ++ String.ofList line,
          "  " ++ Listing.copies column ' ' ++
            Listing.copies (Text.firstLine p.text.toList).length '^'] := by
  have hv : Draft.LocatesVisuals text ⟨.ofCatalog catalog, request, reference⟩ :=
    fun _ table hg => Visual.ends_addTo hg table
  rcases located_or_ignorable hv h with ⟨q, hq, hspan, htext⟩ | ⟨hnone, -⟩
  · obtain rfl : q = p := Option.some.inj (hq.symm.trans hp)
    obtain ⟨before, after, hquery, hstart, hstop⟩ := hspan.exists_chars
    obtain ⟨c, hc, hblank⟩ := hspan.exists_head
    rw [← htext] at hquery hstop hc
    have hshown : Text.firstLine q.text.toList ≠ [] := by
      obtain ⟨cs, hcs⟩ := List.head?_eq_some_iff.mp hc
      have hne : c ≠ '\n' := by
        rintro rfl
        exact absurd hblank (by decide)
      rw [hcs, Text.firstLine, List.takeWhile_cons_of_pos (by simpa using hne)]
      exact List.cons_ne_nil _ _
    have hcarets := Listing.carets_eq hquery hshown
    rw [hstart, hstop] at hcarets
    obtain ⟨front, back, hfront, hline⟩ := Text.exists_isLine before (q.text.toList ++ after)
    obtain ⟨rest, hrest, -⟩ := Text.exists_firstLine_of_append q.text.toList after
    refine ⟨front, _, back, (Text.lastLine before).length, hquery ▸ hline, ?_, hshown, ?_, ?_⟩
    · rw [List.take_left, ← hfront, hstart]
    · rw [List.drop_left, hrest, List.take_left]
    · simp only [Listing.error, hp, hcarets]
  · rw [hnone] at hp
    cases hp

namespace Listing.Sample

def query : String := "from a\nsort by é 'b\nc'"

def place : Place := ⟨⟨18, 23⟩, "'b\nc'"⟩

def refusal : SyntaxError := ⟨.notADirection, some place⟩

end Listing.Sample

open Listing.Sample in
theorem compile_error_carets_sample :
    compile .sample query = .error (.rejected refusal) ∧
    (∃ front line back column, Text.IsLine query.toList front line back ∧
      Text.byteLength (front ++ line.take column) = 18 ∧
      Listing.error query refusal =
        ["Error: " ++ refusal.message, "  " ++ String.ofList line,
          "  " ++ Listing.copies column ' ' ++ Listing.copies 2 '^']) ∧
    Listing.error query refusal =
      ["Error: Syntax exception, expected sort direction 'asc' or 'desc'", "  sort by é 'b",
        "            ^^"] := by
  have hrefused : compile .sample query = .error (.rejected refusal) :=
    Result.eq_error_of_failure? (by decide +kernel)
  obtain ⟨front, line, back, column, hline, hstart, -, -, herror⟩ :=
    compile_error_carets .sample {} ⟨0, 0⟩ hrefused rfl
  exact ⟨hrefused, ⟨front, line, back, column, hline, hstart, herror⟩, by decide +kernel⟩

end PipeQuery
