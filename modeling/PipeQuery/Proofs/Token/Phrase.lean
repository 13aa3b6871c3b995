import PipeQuery.Proofs.Token.Surroundings

/-!
The words of a test for null. Whether they are read at a place hangs on the words themselves, and on
blanks or the ends of the text around them.
-/
namespace PipeQuery

open Piece

namespace Words

private theorem afterWord?_append {word cs rest : List Char} (h : afterWord? word cs = some rest)
    (after : List Char) : afterWord? word (cs ++ after) = some (rest ++ after) := by
  induction word generalizing cs with
  | nil =>
    cases h
    rfl
  | cons w word ih =>
    cases cs with
    | nil => cases h
    | cons c cs =>
      rw [afterWord?] at h
      rw [List.cons_append, afterWord?]
      split at h
      next hc => rw [if_pos hc, ih h]
      next => cases h

/-- A word is read from its own letters. -/
theorem exists_word_of_afterWord? {word cs rest : List Char} (h : afterWord? word cs = some rest) :
    ∃ front, cs = front ++ rest ∧ afterWord? word front = some [] := by
  induction word generalizing cs with
  | nil =>
    cases h
    exact ⟨[], rfl, rfl⟩
  | cons w word ih =>
    cases cs with
    | nil => cases h
    | cons c cs =>
      rw [afterWord?] at h
      split at h
      next hc =>
        obtain ⟨front, rfl, hfront⟩ := ih h
        exact ⟨c :: front, rfl, by rw [afterWord?, if_pos hc, hfront]⟩
      next => cases h

private theorem afterBlanks?_append {cs rest : List Char} (h : afterBlanks? cs = some rest)
    (hne : rest ≠ []) (after : List Char) : afterBlanks? (cs ++ after) = some (rest ++ after) := by
  unfold afterBlanks? at h ⊢
  split at h
  next hblank =>
    cases h
    have hhead : (cs ++ after).head?.any Text.isBlank := by
      cases cs with
      | nil => cases hblank
      | cons c cs => exact hblank
    rw [if_pos hhead, List.dropWhile_append, if_neg (by simpa using hne)]
  next => cases h

private theorem exists_blanks_of_afterBlanks? {cs rest : List Char}
    (h : afterBlanks? cs = some rest) :
    ∃ gap, cs = gap ++ rest ∧ gap ≠ [] ∧ (∀ c ∈ gap, Text.isBlank c) ∧
      rest.head?.any Text.isBlank = false := by
  unfold afterBlanks? at h
  split at h
  next hblank =>
    cases h
    refine ⟨cs.takeWhile Text.isBlank, List.takeWhile_append_dropWhile.symm, ?_,
      List.all_eq_true.mp List.all_takeWhile, ?_⟩
    · cases cs with
      | nil => cases hblank
      | cons c cs =>
        have hc : Text.isBlank c := by simpa using hblank
        simp [hc]
    · have hnot := List.head?_dropWhile_not Text.isBlank cs
      cases hhead : (cs.dropWhile Text.isBlank).head? with
      | none => rfl
      | some d =>
        rw [hhead] at hnot
        simpa using hnot
  next => cases h

private theorem afterBlanks?_eq {gap rest : List Char} (hne : gap ≠ [])
    (hgap : ∀ c ∈ gap, Text.isBlank c) (hrest : rest.head?.any Text.isBlank = false) :
    afterBlanks? (gap ++ rest) = some rest := by
  obtain ⟨c, cs, rfl⟩ := List.exists_cons_of_ne_nil hne
  have hdrop : rest.dropWhile Text.isBlank = rest := by
    cases rest with
    | nil => rfl
    | cons d rest => exact List.dropWhile_cons_of_neg (by simpa using hrest)
  rw [afterBlanks?, if_pos (by simpa using hgap c List.mem_cons_self),
    List.dropWhile_append_of_pos hgap, hdrop]

/-- A phrase is read from its own words, up to a blank or the end. -/
theorem afterPhrase?_append {words : List String} (hwords : ∀ word ∈ words, word ≠ "")
    (hne : words ≠ []) {cs : List Char} (h : afterPhrase? words cs = some []) {after : List Char}
    (hafter : after.head?.all Text.isBlank) : afterPhrase? words (cs ++ after) = some after := by
  induction words generalizing cs with
  | nil => exact absurd rfl hne
  | cons word words ih =>
    obtain ⟨-, hothers⟩ := List.forall_mem_cons.mp hwords
    cases words with
    | nil =>
      obtain ⟨rest, hword, hend⟩ := Option.bind_eq_some_iff.mp h
      split at hend
      next =>
        cases hend
        have hfull := afterWord?_append hword after
        simp [afterPhrase?, hfull, hafter]
      next => cases hend
    | cons next words =>
      obtain ⟨rest, hword, hlater⟩ := Option.bind_eq_some_iff.mp h
      obtain ⟨start, hstart, hphrase⟩ := Option.bind_eq_some_iff.mp hlater
      have hstart_ne : start ≠ [] := by
        rintro rfl
        rw [afterPhrase?_nil (hothers next List.mem_cons_self)] at hphrase
        cases hphrase
      simp only [afterPhrase?, afterWord?_append hword after,
        afterBlanks?_append hstart hstart_ne after, Option.bind_eq_bind, Option.bind_some]
      exact ih hothers (by simp) hphrase

theorem exists_of_afterPhrase?_eq_some {words : List String} (hne : words ≠ [])
    {cs rest : List Char} (h : afterPhrase? words cs = some rest) :
    ∃ front, cs = front ++ rest ∧ afterPhrase? words front = some [] ∧
      rest.head?.all Text.isBlank := by
  induction words generalizing cs with
  | nil => exact absurd rfl hne
  | cons word words ih =>
    cases words with
    | nil =>
      obtain ⟨after, hword, hend⟩ := Option.bind_eq_some_iff.mp h
      split at hend
      next hblank =>
        cases hend
        obtain ⟨front, rfl, hfront⟩ := exists_word_of_afterWord? hword
        exact ⟨front, rfl, by simp [afterPhrase?, hfront], hblank⟩
      next => cases hend
    | cons next words =>
      obtain ⟨after, hword, hlater⟩ := Option.bind_eq_some_iff.mp h
      obtain ⟨start, hstart, hphrase⟩ := Option.bind_eq_some_iff.mp hlater
      obtain ⟨others, rfl, hothers, hblank⟩ := ih (by simp) hphrase
      obtain ⟨gap, rfl, hgap, hblanks, hhead⟩ := exists_blanks_of_afterBlanks? hstart
      obtain ⟨front, rfl, hfront⟩ := exists_word_of_afterWord? hword
      have hfull := afterWord?_append hfront (gap ++ others)
      have hothers_head : others.head?.any Text.isBlank = false := by
        cases others with
        | nil => rfl
        | cons c others => exact hhead
      refine ⟨front ++ (gap ++ others), by simp, ?_, hblank⟩
      rw [List.nil_append] at hfull
      simp only [afterPhrase?, hfull, afterBlanks?_eq hgap hblanks hothers_head,
        Option.bind_eq_bind, Option.bind_some]
      exact hothers

def tests : List (TokenKind × List String) :=
  [(.isNotNull, ["is", "not", "null"]), (.isNull, ["is", "null"])]

def isTest (cs : List Char) : Bool := tests.any fun test => afterPhrase? test.2 cs == some []

theorem not_sameLetter_of_isBlank {w c : Char} (hw : w ∈ ['i', 's', 'n', 'o', 't', 'u', 'l'])
    (hc : Text.isBlank c) : Text.sameLetter w c = false := by
  rw [← Bool.not_eq_true]
  intro hsame
  have hnot := Text.isDelimiter_of_sameLetter hw hsame
  simp [Text.isDelimiter, hc] at hnot

private theorem not_sameLetter_of_fold {w c : Char} (hw : Text.fold w != Text.fold 'i')
    (hc : Text.sameLetter w c) : Text.sameLetter 'i' c = false := by
  rw [Text.sameLetter, beq_iff_eq] at hc
  rw [Text.sameLetter, ← hc, beq_eq_false_iff_ne]
  exact (bne_iff_ne.mp hw).symm

/-- Words without an `i` are written without one. -/
theorem letters_of_afterPhrase? {words : List String} (hne : words ≠ [])
    (hwords : words.all fun word => word.toList.all fun w => Text.fold w != Text.fold 'i')
    {cs rest : List Char} (h : afterPhrase? words cs = some rest) :
    ∃ front, cs = front ++ rest ∧ ∀ c ∈ front, Text.sameLetter 'i' c = false := by
  induction words generalizing cs with
  | nil => exact absurd rfl hne
  | cons word words ih =>
    obtain ⟨hword, hothers⟩ := by simpa only [List.all_cons, Bool.and_eq_true] using hwords
    have hletters {cs rest : List Char} (h : afterWord? word.toList cs = some rest) :
        ∃ front, cs = front ++ rest ∧ ∀ c ∈ front, Text.sameLetter 'i' c = false := by
      obtain ⟨front, hcs, -, hfront⟩ := exists_of_afterWord? h
      refine ⟨front, hcs, ?_⟩
      intro c hc
      obtain ⟨w, hw, hsame⟩ := hfront c hc
      exact not_sameLetter_of_fold (List.all_eq_true.mp hword w hw) hsame
    cases words with
    | nil =>
      obtain ⟨after, hafter, hend⟩ := Option.bind_eq_some_iff.mp h
      split at hend
      next =>
        cases hend
        exact hletters hafter
      next => cases hend
    | cons next words =>
      obtain ⟨after, hafter, hlater⟩ := Option.bind_eq_some_iff.mp h
      obtain ⟨start, hstart, hphrase⟩ := Option.bind_eq_some_iff.mp hlater
      obtain ⟨others, rfl, hothers⟩ := ih (by simp) hothers hphrase
      obtain ⟨gap, rfl, -, hblanks, -⟩ := exists_blanks_of_afterBlanks? hstart
      obtain ⟨front, rfl, hfront⟩ := hletters hafter
      refine ⟨front ++ gap ++ others, by simp, ?_⟩
      intro c hc
      rcases List.mem_append.mp hc with hc | hc
      · rcases List.mem_append.mp hc with hc | hc
        · exact hfront c hc
        · exact not_sameLetter_of_isBlank (by simp) (hblanks c hc)
      · exact hothers c hc

/-- Only the first letter of a test is an `i`. -/
theorem letters_of_test {test : TokenKind × List String} (htest : test ∈ tests)
    {cs rest : List Char} (h : afterPhrase? test.2 cs = some rest) :
    ∃ c front, cs = c :: (front ++ rest) ∧ Text.sameLetter 'i' c ∧
      ∀ d ∈ front, Text.sameLetter 'i' d = false := by
  have hfirst (next : String) (words : List String)
      (hwords : (next :: words).all fun word =>
        word.toList.all fun w => Text.fold w != Text.fold 'i')
      (h : afterPhrase? ("is" :: next :: words) cs = some rest) :
      ∃ c front, cs = c :: (front ++ rest) ∧ Text.sameLetter 'i' c ∧
        ∀ d ∈ front, Text.sameLetter 'i' d = false := by
    obtain ⟨after, hafter, hlater⟩ := Option.bind_eq_some_iff.mp h
    obtain ⟨start, hstart, hphrase⟩ := Option.bind_eq_some_iff.mp hlater
    obtain ⟨others, rfl, hothers⟩ := letters_of_afterPhrase? (by simp) hwords hphrase
    obtain ⟨gap, rfl, -, hblanks, -⟩ := exists_blanks_of_afterBlanks? hstart
    have hletters : afterWord? ['i', 's'] cs = some (gap ++ (others ++ rest)) := hafter
    cases cs with
    | nil => cases hletters
    | cons c cs =>
      rw [afterWord?] at hletters
      split at hletters
      next hi =>
        cases cs with
        | nil => cases hletters
        | cons d cs =>
          rw [afterWord?] at hletters
          split at hletters
          next hs =>
            cases hletters
            refine ⟨c, d :: (gap ++ others), by simp, hi, ?_⟩
            refine List.forall_mem_cons.mpr ⟨not_sameLetter_of_fold (by decide) hs, ?_⟩
            refine List.forall_mem_append.mpr ⟨?_, hothers⟩
            exact fun e he => not_sameLetter_of_isBlank (by simp) (hblanks e he)
          next => cases hletters
      next => cases hletters
  simp only [tests, List.mem_cons, List.not_mem_nil, or_false] at htest
  rcases htest with rfl | rfl
  · exact hfirst _ _ (by decide) h
  · exact hfirst _ _ (by decide) h

/-- A test does not go on as another one. -/
theorem afterPhrase?_isNull {cs rest : List Char} (h : afterPhrase? ["is", "null"] cs = some rest)
    (after : List Char) : afterPhrase? ["is", "not", "null"] (cs ++ after) = none := by
  obtain ⟨start, hstart, hlater⟩ := Option.bind_eq_some_iff.mp h
  obtain ⟨next, hnext, hphrase⟩ := Option.bind_eq_some_iff.mp hlater
  obtain ⟨end', hend, -⟩ := Option.bind_eq_some_iff.mp hphrase
  have hnull : afterWord? ['n', 'u', 'l', 'l'] next = some end' := hend
  have hne : next ≠ [] := by
    rintro rfl
    cases hnull
  -- The second letter of the second word tells the tests apart.
  have hnot : afterWord? ['n', 'o', 't'] (next ++ after) = none := by
    cases next with
    | nil => exact absurd rfl hne
    | cons c next =>
      cases next with
      | nil =>
        rw [afterWord?] at hnull
        split at hnull <;> cases hnull
      | cons d next =>
        rw [afterWord?, afterWord?] at hnull
        split at hnull
        next =>
          split at hnull
          next hd =>
            have ho : Text.sameLetter 'o' d = false := by
              rw [Text.sameLetter, beq_iff_eq] at hd
              rw [Text.sameLetter, ← hd]
              decide
            simp [afterWord?, ho]
          next => cases hnull
        next => cases hnull
  have hnot : afterWord? "not".toList (next ++ after) = none := hnot
  simp only [afterPhrase?, afterWord?_append hstart after, afterBlanks?_append hnext hne after,
    hnot, Option.bind_eq_bind, Option.bind_some, Option.bind_none]

section
variable {test : TokenKind × List String} {before after : List Char} {p : Piece}

theorem tests_words (htest : test ∈ tests) :
    test.2 ≠ [] ∧ (∀ word ∈ test.2, word ≠ "") ∧ test.2.all isTestWord := by
  simp only [tests, List.mem_cons, List.not_mem_nil, or_false] at htest
  rcases htest with rfl | rfl
  · exact ⟨by simp, by simp, by decide⟩
  · exact ⟨by simp, by simp, by decide⟩

theorem phrase_eq_leave_iff {kind : TokenKind} {words : List String} {cs : List Char} :
    phrase kind words before cs = .leave 0 ↔
      ¬(before.head?.all Text.isBlank ∧ (afterPhrase? words cs).isSome) := by
  rw [phrase]
  split
  next hbefore =>
    cases afterPhrase? words cs with
    | none => simp
    | some rest => simp [hbefore]
  next hbefore => simp [hbefore]

/-- A test is marked if blanks or the ends of the text stand around it. -/
theorem judges_phrase_iff (htest : test ∈ tests) (hp : p.kind = test.1) (hne : p.chars ≠ []) :
    (phrase test.1 test.2).Judges [test.1] before p after ↔
      before.head?.all Text.isBlank ∧ afterPhrase? test.2 p.chars = some [] ∧
        after.head?.all Text.isBlank := by
  obtain ⟨hwords, hempty, -⟩ := tests_words htest
  rw [Rule.Judges, if_pos (by simp [hp]), phrase]
  constructor
  · intro hmark
    split at hmark
    next hbefore =>
      split at hmark
      next rest hrest =>
        obtain ⟨front, heq, hfront, hblank⟩ := exists_of_afterPhrase?_eq_some hwords hrest
        have hfront_ne : front ≠ [] := by
          rintro rfl
          obtain ⟨c, others, hnil, -⟩ := letters_of_test htest hfront
          cases hnil
        have hlength := (Cut.mark.inj hmark).2
        rw [heq, List.length_append, Nat.add_sub_cancel] at hlength
        have hpos := List.length_pos_iff.mpr hne
        have hpos' := List.length_pos_iff.mpr hfront_ne
        obtain ⟨rfl, rfl⟩ := List.append_inj heq (by omega)
        exact ⟨hbefore, hfront, hblank⟩
      next => cases hmark
    next => cases hmark
  · rintro ⟨hbefore, hphrase, hafter⟩
    rw [if_pos hbefore, afterPhrase?_append hempty hwords hphrase hafter]
    simp [hp]

end

end Words

end PipeQuery
