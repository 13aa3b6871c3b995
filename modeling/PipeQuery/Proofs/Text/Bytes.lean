import PipeQuery.Token.Basic

/-! Byte offsets between characters: where they may lie, and what is cut out between two of them. -/
namespace PipeQuery.Text

theorem byteLength_append (front back : List Char) :
    byteLength (front ++ back) = byteLength front + byteLength back := by
  induction front with
  | nil => simp [byteLength]
  | cons c cs ih => simp [byteLength, ih, Nat.add_assoc]

theorem byteLength_pos {cs : List Char} (h : cs ≠ []) : 0 < byteLength cs := by
  cases cs with
  | nil => exact absurd rfl h
  | cons c cs =>
    have hc := c.utf8Size_pos
    simp only [byteLength]
    omega

/-- The bytes counted here are the bytes of the text itself. -/
theorem byteLength_eq_utf8ByteSize (cs : List Char) :
    byteLength cs = (String.ofList cs).utf8ByteSize := by
  induction cs with
  | nil => simp [byteLength]
  | cons c cs ih =>
    have hs : String.ofList (c :: cs) = String.singleton c ++ String.ofList cs := by
      rw [← String.toList_inj]
      simp
    rw [byteLength, ih, hs, String.utf8ByteSize_append, String.utf8ByteSize_singleton]

theorem byteLength_toList (s : String) : byteLength s.toList = s.utf8ByteSize := by
  rw [byteLength_eq_utf8ByteSize, String.ofList_toList]

/-- A cut after the bytes of a front part and more goes through the rest. -/
theorem cut?_append (front cs : List Char) (n : Nat) :
    cut? (byteLength front + n) (front ++ cs) =
      (cut? n cs).map fun p => (front ++ p.1, p.2) := by
  induction front with
  | nil => simp [byteLength]
  | cons c front ih =>
    have hc := c.utf8Size_pos
    obtain ⟨m, hm⟩ : ∃ m, byteLength (c :: front) + n = m + 1 :=
      ⟨byteLength (c :: front) + n - 1, by simp only [byteLength]; omega⟩
    have hrest : m + 1 - c.utf8Size = byteLength front + n := by
      rw [← hm, byteLength]
      omega
    have hfit : ¬ m + 1 < c.utf8Size := by
      rw [← hm, byteLength]
      omega
    rw [hm, List.cons_append, cut?, if_neg hfit, hrest, ih]
    cases cut? n cs <;> rfl

/-- A cut after the bytes of a front part gives this part and the rest. -/
theorem cut?_byteLength (front back : List Char) :
    cut? (byteLength front) (front ++ back) = some (front, back) := by
  have hcut := cut?_append front back 0
  rw [Nat.add_zero, cut?] at hcut
  simpa using hcut

/-- What stands after a text makes no difference to a cut in it. -/
theorem cut?_before {cs : List Char} {n : Nat} (h : n ≤ byteLength cs) (back : List Char) :
    cut? n (cs ++ back) = (cut? n cs).map fun p => (p.1, p.2 ++ back) := by
  induction cs generalizing n with
  | nil =>
    cases Nat.le_zero.mp h
    simp [cut?]
  | cons c cs ih =>
    cases n with
    | zero => simp [cut?]
    | succ n =>
      rw [byteLength] at h
      rw [List.cons_append, cut?, cut?, ih (by omega)]
      split
      · rfl
      · cases cut? (n + 1 - c.utf8Size) cs <;> rfl

private theorem cut?_eq_some {n : Nat} {cs front back : List Char}
    (h : cut? n cs = some (front, back)) : cs = front ++ back ∧ byteLength front = n := by
  induction cs generalizing n front with
  | nil =>
    cases n with
    | zero =>
      cases h
      exact ⟨rfl, rfl⟩
    | succ n => cases h
  | cons c cs ih =>
    cases n with
    | zero =>
      cases h
      exact ⟨rfl, rfl⟩
    | succ n =>
      rw [cut?] at h
      split at h
      · cases h
      · obtain ⟨⟨f, b⟩, hcut, heq⟩ := Option.map_eq_some_iff.mp h
        cases heq
        obtain ⟨rfl, hlength⟩ := ih hcut
        refine ⟨rfl, ?_⟩
        rw [byteLength, hlength]
        omega

/-- A span of a text covers the same characters when the text stands inside of another. -/
theorem slice_inside {source inner : String} {front back : List Char}
    (h : source.toList = front ++ (inner.toList ++ back)) {start stop : Nat} (hle : start ≤ stop)
    (hstop : stop ≤ byteLength inner.toList) :
    slice source ⟨byteLength front + start, byteLength front + stop⟩ =
      slice inner ⟨start, stop⟩ := by
  have hlength : byteLength front + stop - (byteLength front + start) = stop - start := by omega
  simp only [slice, sliceChars?, h, hlength, cut?_append, cut?_before (Nat.le_trans hle hstop)]
  cases hcut : cut? start inner.toList with
  | none => rfl
  | some parts =>
    obtain ⟨before, after⟩ := parts
    obtain ⟨heq, hbefore⟩ := cut?_eq_some hcut
    have hafter : stop - start ≤ byteLength after := by
      rw [heq, byteLength_append] at hstop
      omega
    simp only [Option.map_some, Option.bind_eq_bind, Option.bind_some, cut?_before hafter]
    cases cut? (stop - start) after <;> rfl

/-- The characters between a front part and a back part are those that the span between them
covers. -/
theorem slice_between {source : String} {front mid back : List Char}
    (h : source.toList = front ++ mid ++ back) :
    slice source ⟨byteLength front, byteLength front + byteLength mid⟩ = String.ofList mid := by
  have hs : byteLength front + byteLength mid - byteLength front = byteLength mid := by omega
  simp [slice, sliceChars?, h, hs, cut?_byteLength]

/-- The end of a front part lies between characters. -/
theorem isValid_byteLength {source : String} {front back : List Char}
    (h : source.toList = front ++ back) :
    String.Pos.Raw.IsValid source ⟨byteLength front⟩ := by
  rw [String.Pos.Raw.isValid_iff_exists_take_toList]
  exact ⟨front.length, by simp [h, byteLength_eq_utf8ByteSize]⟩

end PipeQuery.Text
