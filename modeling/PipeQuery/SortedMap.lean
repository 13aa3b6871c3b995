/-!
Maps from texts to texts that keep their entries sorted by key.
-/
namespace PipeQuery

/-- Entries with growing keys. -/
structure SortedMap where
  entries : List (String × String)
  sorted : entries.Pairwise (fun a b => a.1 < b.1)
  deriving DecidableEq, Repr

namespace SortedMap

def empty : SortedMap := ⟨[], .nil⟩

def put (key value : String) : List (String × String) → List (String × String)
  | [] => [(key, value)]
  | (k, v) :: rest =>
    if key < k then (key, value) :: (k, v) :: rest
    else if k = key then (key, value) :: rest
    else (k, v) :: put key value rest

/-- Entries after a key is given a value have this key or were there before. -/
theorem key_of_mem_put {key value : String} {entries : List (String × String)}
    {e : String × String} (h : e ∈ put key value entries) : e.1 = key ∨ e ∈ entries := by
  induction entries with
  | nil => simp [put] at h; simp [h]
  | cons head rest ih =>
    rw [put] at h
    split at h
    · simp only [List.mem_cons] at h
      rcases h with h | h
      · exact .inl (by rw [h])
      · exact .inr (by simpa using h)
    · split at h
      · simp only [List.mem_cons] at h
        rcases h with h | h
        · exact .inl (by rw [h])
        · exact .inr (by simp [h])
      · simp only [List.mem_cons] at h
        rcases h with h | h
        · exact .inr (by simp [h])
        · rcases ih h with h | h
          · exact .inl h
          · exact .inr (by simp [h])

/-- Giving a key a value keeps the entries sorted. -/
theorem sorted_put (key value : String) {entries : List (String × String)}
    (h : entries.Pairwise (fun a b => a.1 < b.1)) :
    (put key value entries).Pairwise (fun a b => a.1 < b.1) := by
  induction entries with
  | nil => simp [put]
  | cons head rest ih =>
    obtain ⟨k, v⟩ := head
    rw [List.pairwise_cons] at h
    obtain ⟨hhead, hrest⟩ := h
    rw [put]
    split
    · rename_i hlt
      refine List.pairwise_cons.2 ⟨?_, List.pairwise_cons.2 ⟨hhead, hrest⟩⟩
      intro e he
      rcases List.mem_cons.1 he with rfl | he
      · exact hlt
      · exact String.lt_trans hlt (hhead e he)
    · rename_i hnlt
      split
      · rename_i heq
        subst heq
        exact List.pairwise_cons.2 ⟨fun e he => hhead e he, hrest⟩
      · rename_i hne
        have hgt : k < key := by
          rcases Classical.em (k < key) with h | h
          · exact h
          · exact absurd (String.le_antisymm (String.not_lt.1 hnlt) (String.not_lt.1 h)) hne
        refine List.pairwise_cons.2 ⟨?_, ih hrest⟩
        intro e he
        rcases key_of_mem_put he with h | h
        · rw [h]
          exact hgt
        · exact hhead e h

def insert (m : SortedMap) (key value : String) : SortedMap :=
  ⟨put key value m.entries, sorted_put key value m.sorted⟩

def get? (m : SortedMap) (key : String) : Option String := m.entries.lookup key

end SortedMap

end PipeQuery
