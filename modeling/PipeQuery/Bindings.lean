/-!
Values bound to names. A name has one value, and binding it again replaces the value.
-/
namespace PipeQuery

/-- Names with their values, in the order in which the names were first bound. -/
structure Bindings (α : Type) where
  entries : List (String × α) := []
  deriving Repr, DecidableEq

namespace Bindings

variable {α : Type}

def get? (b : Bindings α) (name : String) : Option α := b.entries.lookup name

def put (name : String) (value : α) : List (String × α) → List (String × α)
  | [] => [(name, value)]
  | (n, v) :: rest => if n = name then (name, value) :: rest else (n, v) :: put name value rest

def insert (b : Bindings α) (name : String) (value : α) : Bindings α :=
  ⟨put name value b.entries⟩

theorem lookup_cons_eq_ite (n key : String) (v : α) (entries : List (String × α)) :
    ((n, v) :: entries).lookup key = if key = n then some v else entries.lookup key := by
  by_cases h : key = n
  · rw [List.lookup_cons, beq_iff_eq.mpr h, if_pos h]
  · rw [List.lookup_cons, beq_false_of_ne h, if_neg h]

private theorem lookup_put (name key : String) (value : α) (entries : List (String × α)) :
    (put name value entries).lookup key =
      if key = name then some value else entries.lookup key := by
  induction entries with
  | nil => exact lookup_cons_eq_ite name key value []
  | cons entry entries ih =>
    obtain ⟨n, v⟩ := entry
    rw [put]
    by_cases hn : n = name
    · rw [if_pos hn, lookup_cons_eq_ite, lookup_cons_eq_ite, hn]
      by_cases h : key = name
      · rw [if_pos h, if_pos h]
      · rw [if_neg h, if_neg h, if_neg h]
    · rw [if_neg hn, lookup_cons_eq_ite, lookup_cons_eq_ite, ih]
      by_cases h : key = n
      · rw [if_pos h, if_pos h, if_neg (h ▸ hn)]
      · rw [if_neg h, if_neg h]

theorem get?_insert (b : Bindings α) (name key : String) (value : α) :
    (b.insert name value).get? key = if key = name then some value else b.get? key :=
  lookup_put name key value b.entries

def size (b : Bindings α) : Nat := b.entries.length

private theorem length_put (name : String) (value : α) (entries : List (String × α)) :
    (put name value entries).length =
      if (entries.lookup name).isSome then entries.length else entries.length + 1 := by
  induction entries with
  | nil => rfl
  | cons entry entries ih =>
    obtain ⟨n, v⟩ := entry
    rw [put, lookup_cons_eq_ite]
    by_cases hn : n = name
    · rw [if_pos hn, if_pos hn.symm, Option.isSome_some, if_pos rfl, List.length_cons,
        List.length_cons]
    · rw [if_neg hn, if_neg (Ne.symm hn), List.length_cons, ih, List.length_cons]
      by_cases h : (entries.lookup name).isSome
      · rw [if_pos h, if_pos h]
      · rw [if_neg h, if_neg h]

theorem size_insert (b : Bindings α) (name : String) (value : α) :
    (b.insert name value).size = if (b.get? name).isSome then b.size else b.size + 1 :=
  length_put name value b.entries

end Bindings

end PipeQuery
