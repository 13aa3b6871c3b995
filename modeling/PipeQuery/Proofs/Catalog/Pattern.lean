import Mathlib.Computability.Language
import PipeQuery.Catalog.Pattern

/-!
The language of a pattern, and the search through the patterns that are left after each character.
The search accepts exactly the names in the language.
-/
namespace PipeQuery.Pattern

open scoped Computability

def language : Pattern → Language Char
  | .none => 0
  | .empty => 1
  | .char d => {cs | ∃ c, cs = [c] ∧ Text.sameLetter d c = true}
  | .any => {cs | ∃ c, cs = [c] ∧ c ≠ '\n'}
  | .seq p q => p.language * q.language
  | .alt p q => p.language + q.language
  | .star p => p.language∗

theorem mem_char {d : Char} {cs : List Char} :
    cs ∈ (Pattern.char d).language ↔ ∃ c, cs = [c] ∧ Text.sameLetter d c = true := Iff.rfl

theorem mem_any {cs : List Char} :
    cs ∈ Pattern.any.language ↔ ∃ c, cs = [c] ∧ c ≠ '\n' := Iff.rfl

/-- Leaving out parts that do nothing keeps the language. -/
theorem language_andThen (p q : Pattern) : (p.andThen q).language = p.language * q.language := by
  have hnone : Pattern.none.language = 0 := rfl
  have hempty : Pattern.empty.language = 1 := rfl
  unfold andThen
  split
  · rw [hnone, zero_mul]
  · rw [hnone, mul_zero]
  · rw [hempty, one_mul]
  · rw [hempty, mul_one]
  · rfl

private theorem nullable_iff (p : Pattern) : p.nullable = true ↔ [] ∈ p.language := by
  induction p with
  | none => simp [nullable, language]
  | empty => simp [nullable, language]
  | char d => simp [nullable, mem_char]
  | any => simp [nullable, mem_any]
  | seq p q ihp ihq =>
    rw [nullable, Bool.and_eq_true, ihp, ihq, language, Language.mem_mul]
    constructor
    · rintro ⟨hp, hq⟩
      exact ⟨[], hp, [], hq, rfl⟩
    · rintro ⟨as, hp, bs, hq, happend⟩
      obtain ⟨rfl, rfl⟩ := List.append_eq_nil_iff.mp happend
      exact ⟨hp, hq⟩
  | alt p q ihp ihq => rw [nullable, Bool.or_eq_true, ihp, ihq, language, Language.mem_add]
  | star p _ => simp [nullable, language, Language.nil_mem_kstar]

section Derivative
variable {l m : Language Char} {c : Char} {cs : List Char}

/-- The first character of a sequence belongs to its first part, unless that part is empty. -/
theorem cons_mem_mul : c :: cs ∈ l * m ↔
    (∃ as, c :: as ∈ l ∧ ∃ bs ∈ m, as ++ bs = cs) ∨ [] ∈ l ∧ c :: cs ∈ m := by
  rw [Language.mem_mul]
  constructor
  · rintro ⟨as, hl, bs, hm, happend⟩
    cases as with
    | nil =>
      right
      rw [← happend]
      exact ⟨hl, hm⟩
    | cons a as =>
      left
      obtain ⟨rfl, hrest⟩ := List.cons.inj happend
      exact ⟨as, hl, bs, hm, hrest⟩
  · rintro (⟨as, hl, bs, hm, rfl⟩ | ⟨hl, hm⟩)
    · exact ⟨c :: as, hl, bs, hm, rfl⟩
    · exact ⟨[], hl, c :: cs, hm, rfl⟩

/-- The first character of a repetition belongs to its first round that is not empty. -/
theorem cons_mem_kstar : c :: cs ∈ l∗ ↔ ∃ as, c :: as ∈ l ∧ ∃ bs ∈ l∗, as ++ bs = cs := by
  constructor
  · intro h
    obtain ⟨rounds, hflatten, hrounds⟩ := Language.mem_kstar_iff_exists_nonempty.mp h
    cases rounds with
    | nil => cases hflatten
    | cons first rounds =>
      obtain ⟨⟨hfirst, hne⟩, hrest⟩ := List.forall_mem_cons.mp hrounds
      cases first with
      | nil => exact absurd rfl hne
      | cons a as =>
        rw [List.flatten_cons, List.cons_append] at hflatten
        obtain ⟨rfl, rfl⟩ := List.cons.inj hflatten
        exact ⟨as, hfirst, rounds.flatten, Language.join_mem_kstar fun y hy => (hrest y hy).1, rfl⟩
  · rintro ⟨as, hl, bs, hbs, rfl⟩
    obtain ⟨rounds, rfl, hrounds⟩ := Language.mem_kstar.mp hbs
    apply Language.mem_kstar.mpr
    refine ⟨(c :: as) :: rounds, rfl, ?_⟩
    rw [List.forall_mem_cons]
    exact ⟨hl, hrounds⟩

end Derivative

def AnyMatches (ps : List Pattern) (cs : List Char) : Prop := ∃ p ∈ ps, cs ∈ p.language

private theorem anyMatches_append {ps qs : List Pattern} {cs : List Char} :
    AnyMatches (ps ++ qs) cs ↔ AnyMatches ps cs ∨ AnyMatches qs cs := by
  simp only [AnyMatches, List.mem_append, or_and_right, exists_or]

private theorem anyMatches_andThen {ps : List Pattern} {q : Pattern} {cs : List Char} :
    AnyMatches (ps.map (·.andThen q)) cs ↔
      ∃ as, AnyMatches ps as ∧ ∃ bs ∈ q.language, as ++ bs = cs := by
  constructor
  · rintro ⟨_, hmem, hcs⟩
    obtain ⟨p, hp, rfl⟩ := List.mem_map.mp hmem
    rw [language_andThen, Language.mem_mul] at hcs
    obtain ⟨as, has, hbs⟩ := hcs
    exact ⟨as, ⟨p, hp, has⟩, hbs⟩
  · rintro ⟨as, ⟨p, hp, has⟩, hbs⟩
    refine ⟨p.andThen q, List.mem_map.mpr ⟨p, hp, rfl⟩, ?_⟩
    rw [language_andThen, Language.mem_mul]
    exact ⟨as, has, hbs⟩

/-- What is left of a pattern after a character matches what may follow the character. -/
theorem anyMatches_partials (p : Pattern) (c : Char) (cs : List Char) :
    AnyMatches (p.partials c) cs ↔ c :: cs ∈ p.language := by
  induction p generalizing cs with
  | none => simp [partials, AnyMatches, language]
  | empty => simp [partials, AnyMatches, language]
  | char d =>
    rw [partials, mem_char]
    split
    next h => simp [AnyMatches, language, h]
    next h => simp [AnyMatches, h]
  | any =>
    rw [partials, mem_any]
    split
    next h => simp [AnyMatches, h]
    next h => simp [AnyMatches, language, h]
  | seq p q ihp ihq =>
    rw [language, cons_mem_mul, partials]
    split
    next h =>
      rw [anyMatches_append, anyMatches_andThen, ihq]
      simp only [ihp, (nullable_iff p).mp h, true_and]
    next h =>
      have hnil : [] ∉ p.language := fun hmem => h ((nullable_iff p).mpr hmem)
      rw [anyMatches_andThen]
      simp only [ihp, hnil, false_and, or_false]
  | alt p q ihp ihq => rw [partials, anyMatches_append, ihp, ihq, language, Language.mem_add]
  | star p ih =>
    rw [partials, anyMatches_andThen, language, cons_mem_kstar]
    simp only [ih]

private theorem anyMatches_step (ps : List Pattern) (c : Char) (cs : List Char) :
    AnyMatches (step ps c) cs ↔ AnyMatches ps (c :: cs) := by
  simp only [AnyMatches, step, List.mem_eraseDups, List.mem_flatMap]
  constructor
  · rintro ⟨q, ⟨p, hp, hq⟩, hcs⟩
    exact ⟨p, hp, (anyMatches_partials p c cs).mp ⟨q, hq, hcs⟩⟩
  · rintro ⟨p, hp, hcs⟩
    obtain ⟨q, hq, hmem⟩ := (anyMatches_partials p c cs).mpr hcs
    exact ⟨q, ⟨p, hp, hq⟩, hmem⟩

private theorem any_nullable_foldl_step (ps : List Pattern) (cs : List Char) :
    (cs.foldl step ps).any nullable = true ↔ AnyMatches ps cs := by
  induction cs generalizing ps with
  | nil => simp only [List.foldl_nil, List.any_eq_true, nullable_iff, AnyMatches]
  | cons c cs ih => rw [List.foldl_cons, ih, anyMatches_step]

/-- A pattern accepts the names in its language. -/
theorem accepts_iff (p : Pattern) (name : String) :
    p.accepts name = true ↔ name.toList ∈ p.language := by
  rw [accepts, acceptsChars, any_nullable_foldl_step]
  simp only [AnyMatches, List.mem_singleton, exists_eq_left]

end PipeQuery.Pattern
