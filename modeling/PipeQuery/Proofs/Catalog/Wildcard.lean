import Mathlib.Data.List.Forall2
import PipeQuery.Catalog
import PipeQuery.Proofs.Catalog.Pattern

/-!
Wildcards as they are meant: every character of a wildcard stands for a run of characters, and a name
matches if it is made up of such runs. The pattern that is written for a wildcard is read back as one
part for each character, so the fields that are found for a wildcard are those that match it.
-/
namespace PipeQuery

namespace Wildcard

/-- What a character of a wildcard stands for: a star for any run of characters other than line
ends, a question mark for at most one of these, and every other character for itself up to case. -/
inductive StandsFor : Char → List Char → Prop where
  | star {run : List Char} (inLine : '\n' ∉ run) : StandsFor '*' run
  | question {run : List Char} (inLine : '\n' ∉ run) (short : run.length ≤ 1) : StandsFor '?' run
  | letter {c d : Char} (notStar : c ≠ '*') (notQuestion : c ≠ '?')
    (same : Text.sameLetter c d = true) : StandsFor c [d]

def Matches (wildcard name : List Char) : Prop :=
  ∃ runs, List.Forall₂ StandsFor wildcard runs ∧ runs.flatten = name

private theorem matches_nil {name : List Char} : Matches [] name ↔ name = [] := by
  simp [Matches, eq_comm]

private theorem matches_cons {c : Char} {wildcard name : List Char} :
    Matches (c :: wildcard) name ↔
      ∃ run rest, StandsFor c run ∧ Matches wildcard rest ∧ run ++ rest = name := by
  constructor
  · rintro ⟨_, hruns, rfl⟩
    cases hruns with
    | @cons _ run _ runs hrun hruns => exact ⟨run, runs.flatten, hrun, ⟨runs, hruns, rfl⟩, rfl⟩
  · rintro ⟨run, _, hrun, ⟨runs, hruns, rfl⟩, rfl⟩
    exact ⟨run :: runs, .cons hrun hruns, rfl⟩

private theorem standsFor_star {run : List Char} : StandsFor '*' run ↔ '\n' ∉ run := by
  constructor
  · intro h
    cases h with
    | star inLine => exact inLine
    | letter notStar _ _ => exact absurd rfl notStar
  · exact .star

private theorem standsFor_question {run : List Char} :
    StandsFor '?' run ↔ '\n' ∉ run ∧ run.length ≤ 1 := by
  constructor
  · intro h
    cases h with
    | question inLine short => exact ⟨inLine, short⟩
    | letter _ notQuestion _ => exact absurd rfl notQuestion
  · rintro ⟨inLine, short⟩
    exact .question inLine short

private theorem standsFor_letter {c : Char} (hstar : c ≠ '*') (hquestion : c ≠ '?')
    {run : List Char} : StandsFor c run ↔ ∃ d, run = [d] ∧ Text.sameLetter c d = true := by
  constructor
  · intro h
    cases h with
    | star _ => exact absurd rfl hstar
    | question _ _ => exact absurd rfl hquestion
    | @letter _ d _ _ same => exact ⟨d, rfl, same⟩
  · rintro ⟨d, rfl, same⟩
    exact .letter hstar hquestion same

instance (c : Char) (run : List Char) : Decidable (StandsFor c run) :=
  if hstar : c = '*' then decidable_of_iff ('\n' ∉ run) (by rw [hstar, standsFor_star])
  else if hquestion : c = '?' then
    decidable_of_iff ('\n' ∉ run ∧ run.length ≤ 1) (by rw [hquestion, standsFor_question])
  else
    decidable_of_iff (run.length = 1 ∧ run.all (Text.sameLetter c) = true) (by
      rw [standsFor_letter hstar hquestion, List.length_eq_one_iff]
      constructor
      · rintro ⟨⟨d, rfl⟩, h⟩
        exact ⟨d, rfl, by simpa using h⟩
      · rintro ⟨d, rfl, h⟩
        exact ⟨⟨d, rfl⟩, by simpa using h⟩)

private theorem matches_cons_iff_split {c : Char} {wildcard name : List Char} :
    (∃ k, k < name.length + 1 ∧ StandsFor c (name.take k) ∧ Matches wildcard (name.drop k)) ↔
      Matches (c :: wildcard) name := by
  rw [matches_cons]
  constructor
  · rintro ⟨k, -, hrun, hrest⟩
    exact ⟨_, _, hrun, hrest, List.take_append_drop k name⟩
  · rintro ⟨run, rest, hrun, hrest, rfl⟩
    refine ⟨run.length, by rw [List.length_append]; omega, ?_, ?_⟩
    · rwa [List.take_left]
    · rwa [List.drop_left]

def decideMatches : (wildcard name : List Char) → Decidable (Matches wildcard name)
  | [], _ => decidable_of_iff _ matches_nil.symm
  | _ :: wildcard, name =>
    have := fun k => decideMatches wildcard (name.drop k)
    decidable_of_iff _ matches_cons_iff_split

instance (wildcard name : List Char) : Decidable (Matches wildcard name) :=
  decideMatches wildcard name

end Wildcard

namespace Pattern

def ofWildcardChar (c : Char) : Pattern :=
  if c = '*' then .star .any else if c = '?' then optional .any else .char c

private theorem mem_kstar_any {run : List Char} :
    run ∈ (Pattern.star .any).language ↔ '\n' ∉ run := by
  induction run with
  | nil => exact iff_of_true (Language.nil_mem_kstar _) List.not_mem_nil
  | cons c run ih =>
    rw [language] at ih ⊢
    rw [cons_mem_kstar]
    simp only [mem_any, List.cons.injEq, List.mem_cons, not_or]
    constructor
    · rintro ⟨as, ⟨_, ⟨rfl, rfl⟩, hc⟩, bs, hbs, rfl⟩
      exact ⟨Ne.symm hc, ih.mp hbs⟩
    · rintro ⟨hc, hrun⟩
      exact ⟨[], ⟨c, ⟨rfl, rfl⟩, Ne.symm hc⟩, run, ih.mpr hrun, rfl⟩

/-- The part for a character matches what the character stands for. -/
theorem mem_ofWildcardChar (c : Char) (run : List Char) :
    run ∈ (ofWildcardChar c).language ↔ Wildcard.StandsFor c run := by
  by_cases hstar : c = '*'
  · rw [ofWildcardChar, if_pos hstar, hstar, mem_kstar_any, Wildcard.standsFor_star]
  by_cases hquestion : c = '?'
  · rw [ofWildcardChar, if_neg hstar, if_pos hquestion, hquestion, Wildcard.standsFor_question,
      optional, language, Language.mem_add, mem_any]
    rcases run with _ | ⟨d, _ | ⟨e, run⟩⟩
    · simp [language]
    · simp [language, eq_comm]
    · simp [language]
  · rw [ofWildcardChar, if_neg hstar, if_neg hquestion, mem_char,
      Wildcard.standsFor_letter hstar hquestion]

/-- The pattern of parts in reverse order is the sequence of these parts. -/
theorem mem_current (before : Pattern) (wildcard name : List Char) :
    name ∈ (Choice.current ⟨before, (wildcard.map ofWildcardChar).reverse⟩).language ↔
      Wildcard.Matches wildcard name := by
  rw [Choice.current, List.foldl_reverse]
  induction wildcard generalizing name with
  | nil =>
    rw [Wildcard.matches_nil]
    rfl
  | cons c wildcard ih =>
    rw [List.map_cons, List.foldr_cons, language_andThen, Language.mem_mul, Wildcard.matches_cons]
    constructor
    · rintro ⟨run, hrun, rest, hrest, rfl⟩
      exact ⟨run, rest, (mem_ofWildcardChar c run).mp hrun, (ih rest).mp hrest, rfl⟩
    · rintro ⟨run, rest, hrun, hrest, rfl⟩
      exact ⟨run, (mem_ofWildcardChar c run).mpr hrun, rest, (ih rest).mpr hrest, rfl⟩

/-- A character without a meaning of its own is read as itself. -/
theorem readChars_plain {outer : List Choice} {group : Choice} {c : Char} {cs : List Char}
    (h : special.contains c = false) :
    readChars outer group (c :: cs) = readChars outer (group.add (.char c)) cs := by
  have hne (d : Char) (hd : special.contains d = true) : c ≠ d := by
    rintro rfl
    rw [h] at hd
    cases hd
  rw [readChars.eq_def]
  split
  next heq => cases heq
  next heq => cases heq
  next heq => exact absurd (List.cons.inj heq).1 (hne _ (by decide))
  next heq =>
    cases heq
    split
    case h_13 => rfl
    all_goals exact absurd rfl (hne _ (by decide))

/-- The text for a character of a wildcard is read as its part. -/
theorem readChars_wildcardChar (parts : List Pattern) (c : Char) (cs : List Char) :
    readChars [] ⟨.none, parts⟩ (wildcardChar c ++ cs) =
      readChars [] ⟨.none, ofWildcardChar c :: parts⟩ cs := by
  unfold wildcardChar ofWildcardChar
  split
  next hstar => rfl
  next hstar =>
    split
    next hquestion => rfl
    next hquestion =>
      split
      next hspecial => exact if_pos hspecial
      next hspecial => exact readChars_plain (by simpa using hspecial)

private theorem readChars_wildcard (parts : List Pattern) (wildcard : List Char) :
    readChars [] ⟨.none, parts⟩ (wildcard.flatMap wildcardChar) =
      some (Choice.current ⟨.none, (wildcard.map ofWildcardChar).reverse ++ parts⟩) := by
  induction wildcard generalizing parts with
  | nil => rfl
  | cons c wildcard ih =>
    rw [List.flatMap_cons, readChars_wildcardChar, ih, List.map_cons, List.reverse_cons,
      List.append_assoc, List.singleton_append]

/-- The text for a wildcard is a pattern, and accepts what matches the wildcard. -/
theorem exists_of_wildcard {wildcard text : String} (h : ofWildcard? wildcard = some text) :
    ∃ p, ofText? text = some p ∧
      ∀ name, p.accepts name = true ↔ Wildcard.Matches wildcard.toList name.toList := by
  rw [ofWildcard?] at h
  split at h
  next => cases h
  next =>
    cases h
    refine ⟨Choice.current ⟨.none, (wildcard.toList.map ofWildcardChar).reverse⟩, ?_, ?_⟩
    · rw [ofText?, String.toList_ofList]
      exact (readChars_wildcard [] wildcard.toList).trans (by rw [List.append_nil])
    · intro name
      rw [accepts_iff, mem_current]

end Pattern

namespace Catalog

private theorem dataSource?_eq_some {c : Catalog} {d : DataSource}
    (hdistinct : (c.dataSources.map (·.uuid)).Nodup) (hd : d ∈ c.dataSources) :
    c.dataSource? d.uuid = some d := by
  obtain ⟨front, back, hsplit⟩ := List.append_of_mem hd
  rw [hsplit, List.map_append, List.map_cons, List.nodup_middle, List.nodup_cons] at hdistinct
  have hfront : front.find? (·.uuid == d.uuid) = none := by
    rw [List.find?_eq_none]
    intro e he heq
    apply hdistinct.1
    rw [← beq_iff_eq.mp heq]
    exact List.mem_append_left _ (List.mem_map.mpr ⟨e, he, rfl⟩)
  rw [dataSource?, hsplit, List.find?_append, hfront, Option.none_or]
  apply List.find?_cons_of_pos
  exact beq_self_eq_true d.uuid

/-- Selecting fields by a wildcard is matching. In a catalog whose data sources have different
identifiers, the fields that are found for a wildcard in one of them are its fields that match the
wildcard, in their order. A star alone finds all of them, also those with line ends. -/
theorem findFields_wildcard {c : Catalog} {d : DataSource} {source : DocRef}
    (hdistinct : (c.dataSources.map (·.uuid)).Nodup) (hd : d ∈ c.dataSources)
    (hsource : source.uuid = d.uuid) (wildcard : String) :
    c.findFields source (Pattern.ofWildcard? wildcard) =
      d.fields.filter fun field =>
        wildcard = "*" ∨ Wildcard.Matches wildcard.toList field.toList := by
  rw [findFields, hsource, dataSource?_eq_some hdistinct hd]
  cases htext : Pattern.ofWildcard? wildcard with
  | none =>
    have hstar : wildcard = "*" := by
      rw [Pattern.ofWildcard?] at htext
      split at htext
      next hstar => exact hstar
      next => cases htext
    simp [hstar]
  | some text =>
    have hstar : wildcard ≠ "*" := by
      rintro rfl
      cases htext
    obtain ⟨p, hp, haccepts⟩ := Pattern.exists_of_wildcard htext
    simp only [hp]
    apply List.filter_congr
    intro field _
    rw [Bool.eq_iff_iff, haccepts, decide_eq_true_iff]
    simp [hstar]

namespace Sample

/-- Some fields have a dot, one of them with a long s, and one has a line end. -/
def events : DataSource :=
  ⟨"View", "v", "Events", ["User.Id", "Usr.x", "u\u017fer.", "UserId", "us\nr.x"]⟩

def catalog : Catalog := { dataSources := [⟨"View", "u", "Users", ["Name"]⟩, events] }

end Sample

open Sample in
theorem findFields_wildcard_sample :
    (catalog.dataSources.map (·.uuid)).Nodup ∧ events ∈ catalog.dataSources ∧
      catalog.findFields events.docRef (Pattern.ofWildcard? "us?r.*") =
        events.fields.filter (fun field =>
          "us?r.*" = "*" ∨ Wildcard.Matches "us?r.*".toList field.toList) ∧
      catalog.findFields events.docRef (Pattern.ofWildcard? "us?r.*") =
        ["User.Id", "Usr.x", "u\u017fer."] := by
  have hdistinct : (catalog.dataSources.map (·.uuid)).Nodup := by decide
  have hd : events ∈ catalog.dataSources := by decide
  have hfields := findFields_wildcard hdistinct hd (rfl : events.docRef.uuid = events.uuid) "us?r.*"
  refine ⟨hdistinct, hd, hfields, ?_⟩
  rw [hfields]
  decide +kernel

end Catalog

end PipeQuery
