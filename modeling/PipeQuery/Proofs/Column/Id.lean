import Mathlib.Data.List.Basic
import Mathlib.Data.List.Nodup
import PipeQuery.Draft.Columns

/-!
Identifiers that are counted by their form. The form of a name has no dash and the number after the
dash is new for its form, so no identifier is given twice.
-/
namespace PipeQuery.ColumnId

private theorem isPlain_or_eq_of_mem_squeeze {c : Char} {inRun : Bool} {cs : List Char}
    (h : c ∈ squeeze inRun cs) : isPlain c ∨ c = '_' := by
  induction cs generalizing inRun with
  | nil => cases h
  | cons b cs ih =>
    rw [squeeze] at h
    split at h
    next hb =>
      rcases List.mem_cons.mp h with rfl | h
      · exact .inl hb
      · exact ih h
    next =>
      split at h
      · exact ih h
      · rcases List.mem_cons.mp h with rfl | h
        · exact .inr rfl
        · exact ih h

private theorem dash_notMem_clean (name : String) : '-' ∉ (clean name).toList := by
  intro h
  rw [clean, String.toList_ofList] at h
  rcases isPlain_or_eq_of_mem_squeeze h with h | h
  · exact absurd h (by decide)
  · exact absurd h (by decide)

private theorem isDigit_of_mem_toString {n : Nat} {c : Char} (h : c ∈ (toString n).toList) :
    c.isDigit := by
  rw [Nat.toString_eq_ofList_toDigits, String.toList_ofList] at h
  exact Nat.isDigit_of_mem_toDigits (by decide) (by decide) h

/-- A form without dashes and a number can be read back from the identifier. -/
theorem form_and_count_inj {form form' : String} {n n' : Nat} (hform : '-' ∉ form.toList)
    (h : form ++ "-" ++ toString n = form' ++ "-" ++ toString n') : form = form' ∧ n = n' := by
  have hdigits : '-' ∉ (toString n).toList := fun hd =>
    absurd (isDigit_of_mem_toString hd) (by decide)
  have hlist : form.toList ++ '-' :: (toString n).toList =
      form'.toList ++ '-' :: (toString n').toList := by
    simpa using congrArg String.toList h
  obtain ⟨hf, -, hn⟩ := (List.append_cons_inj_of_notMem hform hdigits).mp hlist
  refine ⟨String.toList_inj.mp hf, ?_⟩
  rw [Nat.toString_eq_ofList_toDigits, Nat.toString_eq_ofList_toDigits, String.toList_ofList,
    String.toList_ofList] at hn
  rw [← Nat.ofDigitChars_ten_toDigits (n := n), hn, Nat.ofDigitChars_ten_toDigits]

/-- The identifiers that have been given when the counts are as they are. -/
structure Issued (counts : Counts) (ids : List String) : Prop where
  nodup : ids.Nodup
  counted : ∀ id ∈ ids, ∃ form n, id = form ++ "-" ++ toString n ∧ '-' ∉ form.toList ∧
    n ≤ (counts.get? form).getD 0

theorem issued_nil (counts : Counts) : Issued counts [] := ⟨.nil, by simp⟩

/-- The next identifier is a new one. -/
theorem Issued.next {counts : Counts} {ids : List String} (h : Issued counts ids) (name : String) :
    Issued (next counts name).2 (ids ++ [(next counts name).1]) := by
  have hnew : (ColumnId.next counts name).1 ∉ ids := by
    intro hid
    obtain ⟨form, n, hn, -, hle⟩ := h.counted _ hid
    obtain ⟨rfl, rfl⟩ := form_and_count_inj (dash_notMem_clean name) hn
    omega
  constructor
  · rw [List.nodup_append]
    refine ⟨h.nodup, List.nodup_singleton _, ?_⟩
    rintro id hid id' hid' rfl
    exact hnew (List.mem_singleton.mp hid' ▸ hid)
  · intro id hid
    rcases List.mem_append.mp hid with hid | hid
    · obtain ⟨form, n, rfl, hform, hle⟩ := h.counted id hid
      refine ⟨form, n, rfl, hform, ?_⟩
      rw [ColumnId.next, Bindings.get?_insert]
      split
      next heq =>
        subst heq
        exact Nat.le_succ_of_le hle
      next => exact hle
    · rw [List.mem_singleton] at hid
      subst hid
      refine ⟨clean name, _, rfl, dash_notMem_clean name, ?_⟩
      simp only [ColumnId.next, Bindings.get?_insert, if_true, Option.getD_some, Nat.le_refl]

/-- A digit ends the identifier. -/
theorem Issued.getLast?_ne {counts : Counts} {ids : List String} (h : Issued counts ids)
    {id : String} (hid : id ∈ ids) : id.toList.getLast? ≠ some '_' := by
  obtain ⟨form, n, rfl, -, -⟩ := h.counted id hid
  intro hlast
  have hdigits : (toString n).toList ≠ [] := by
    rw [Nat.toString_eq_ofList_toDigits, String.toList_ofList]
    exact Nat.toDigits_ne_nil
  rw [String.toList_append, List.getLast?_append_of_ne_nil _ hdigits] at hlast
  exact absurd (isDigit_of_mem_toString (List.mem_of_getLast? hlast)) (by decide)

end PipeQuery.ColumnId
