import PipeQuery.Proofs.Text.Bytes
import PipeQuery.Text.Character

/-!
Texts in lower case, and what does not depend on the case of their ASCII letters.
-/
namespace PipeQuery.Text

def lowercase (cs : List Char) : List Char := cs.map Char.toLower

def Caseless {α : Type} (f : Char → α) : Prop := ∀ c, f c.toLower = f c

/-- Only the 26 letters have to be looked at. -/
theorem caseless_of_letters {α : Type} [DecidableEq α] {f : Char → α}
    (h : (List.range 26).all fun n => f (Char.ofNat (97 + n)) == f (Char.ofNat (65 + n))) :
    Caseless f := by
  intro c
  by_cases hc : c.val ≥ 'A'.val ∧ c.val ≤ 'Z'.val
  · obtain ⟨n, hn, rfl⟩ : ∃ n < 26, c = Char.ofNat (65 + n) := by
      have hlow : 65 ≤ c.toNat := hc.1
      have hhigh : c.toNat ≤ 90 := hc.2
      refine ⟨c.toNat - 65, by omega, ?_⟩
      rw [Nat.add_sub_cancel' hlow, Char.ofNat_toNat]
    have hletter := List.all_eq_true.mp h n (List.mem_range.mpr hn)
    have hlower : (List.range 26).all fun n =>
        (Char.ofNat (65 + n)).toLower == Char.ofNat (97 + n) := by decide
    have hn := List.all_eq_true.mp hlower n (List.mem_range.mpr hn)
    rw [beq_iff_eq] at hletter hn
    rw [hn, hletter]
  · have hsame : c.toLower = c := dif_neg hc
    rw [hsame]

theorem caseless_isBlank : Caseless isBlank := caseless_of_letters (by decide)

theorem caseless_isIdentifierStart : Caseless isIdentifierStart := caseless_of_letters (by decide)

theorem caseless_isIdentifierRest : Caseless isIdentifierRest := caseless_of_letters (by decide)

theorem caseless_fold : Caseless fold := caseless_of_letters (by decide +kernel)

private theorem caseless_utf8Size : Caseless Char.utf8Size := caseless_of_letters (by decide)

private theorem toLower_toLower (c : Char) : c.toLower.toLower = c.toLower :=
  caseless_of_letters (by decide) c

/-- The characters that the cutting stages look for are no letters. -/
theorem caseless_marks :
    ∀ x ∈ ['"', '\'', '/', '*', '\\', '\n', '$', '\x7b', '\x7d', '|', '(', ')', ','],
      Caseless (· == x) := by
  simp only [List.forall_mem_cons]
  refine ⟨?_, ?_, ?_, ?_, ?_, ?_, ?_, ?_, ?_, ?_, ?_, ?_, ?_, by simp⟩ <;>
    exact caseless_of_letters (by decide)

namespace Caseless
variable {q : Char → Bool}

theorem toLower_eq_iff {x : Char} (hx : Caseless (· == x)) {c : Char} :
    c.toLower = x ↔ c = x := by
  have hbeq : (c.toLower == x) = (c == x) := hx c
  rw [← beq_iff_eq, hbeq, beq_iff_eq]

theorem bne {x : Char} (hx : Caseless (· == x)) : Caseless (· != x) :=
  fun c => congrArg (!·) (hx c)

theorem takeWhile_lowercase (hq : Caseless q) (cs : List Char) :
    (lowercase cs).takeWhile q = lowercase (cs.takeWhile q) := by
  rw [lowercase, List.takeWhile_map, show q ∘ Char.toLower = q from funext hq, lowercase]

theorem dropWhile_lowercase (hq : Caseless q) (cs : List Char) :
    (lowercase cs).dropWhile q = lowercase (cs.dropWhile q) := by
  rw [lowercase, List.dropWhile_map, show q ∘ Char.toLower = q from funext hq, lowercase]

theorem head_any_lowercase (hq : Caseless q) (cs : List Char) :
    (lowercase cs).head?.any q = cs.head?.any q := by
  cases cs with
  | nil => rfl
  | cons c cs => exact hq c

theorem head_all_lowercase (hq : Caseless q) (cs : List Char) :
    (lowercase cs).head?.all q = cs.head?.all q := by
  cases cs with
  | nil => rfl
  | cons c cs => exact hq c

theorem head_beq_lowercase {x : Char} (hx : Caseless (· == x)) (cs : List Char) :
    ((lowercase cs).head? == some x) = (cs.head? == some x) := by
  cases cs with
  | nil => rfl
  | cons c cs => exact hx c

theorem head_lowercase_ne {x : Char} (hx : Caseless (· == x)) {cs : List Char}
    (h : cs.head? ≠ some x) : (lowercase cs).head? ≠ some x := by
  rw [Ne, ← beq_iff_eq, hx.head_beq_lowercase, beq_iff_eq]
  exact h

end Caseless

theorem lowercase_cons (c : Char) (cs : List Char) :
    lowercase (c :: cs) = c.toLower :: lowercase cs := rfl

theorem length_lowercase (cs : List Char) : (lowercase cs).length = cs.length := List.length_map ..

theorem take_lowercase (n : Nat) (cs : List Char) :
    (lowercase cs).take n = lowercase (cs.take n) :=
  List.map_take.symm

theorem drop_lowercase (n : Nat) (cs : List Char) :
    (lowercase cs).drop n = lowercase (cs.drop n) :=
  List.map_drop.symm

theorem lowercase_append (cs ds : List Char) :
    lowercase (cs ++ ds) = lowercase cs ++ lowercase ds :=
  List.map_append

theorem byteLength_lowercase (cs : List Char) : byteLength (lowercase cs) = byteLength cs := by
  induction cs with
  | nil => rfl
  | cons c cs ih => rw [lowercase_cons, byteLength, byteLength, caseless_utf8Size, ih]

theorem byteLength_take_lt {cs : List Char} {i : Nat} (h : i < cs.length) :
    byteLength (cs.take i) < byteLength cs := by
  have hpos : 0 < byteLength (cs.drop i) := byteLength_pos (by simpa using h)
  have hsum := byteLength_append (cs.take i) (cs.drop i)
  rw [List.take_append_drop] at hsum
  omega

theorem sameIgnoringCaseChars_lowercase (word cs : List Char) :
    sameIgnoringCaseChars word (lowercase cs) = sameIgnoringCaseChars word cs := by
  have hlower : (lowercase cs).map Char.toLower = cs.map Char.toLower := by
    rw [lowercase, List.map_map]
    exact List.map_congr_left fun c _ => toLower_toLower c
  rw [sameIgnoringCaseChars, hlower, sameIgnoringCaseChars]

end PipeQuery.Text
