import PipeQuery.Bindings
import PipeQuery.Json.Record

/-!
Records as JSON. The fields that are written stand under different keys, so each of them is found
again, and one that was left out is not found at all. A reader of records therefore inverts the
writer if the reader of every field does.
-/
namespace PipeQuery.Json

/-- No null stands in the value, and nothing that cannot be read. -/
inductive NullFree : Json → Prop where
  | bool (b : Bool) : NullFree (.bool b)
  | int (n : Int) : NullFree (.int n)
  | decimal (written : String) : NullFree (.decimal written)
  | str (s : String) : NullFree (.str s)
  | arr {items : List Json} (h : ∀ j ∈ items, NullFree j) : NullFree (.arr items)
  | obj {fields : List (String × Json)} (h : ∀ p ∈ fields, NullFree p.2) : NullFree (.obj fields)

/-- The reader gives back every value that is written, and what has no value is never written. -/
structure Codec {α : Type} (write : α → Json) (read : Json → Option α) : Prop where
  read_write : ∀ a, read (write a) = some a
  nullFree : ∀ a, (write a).NullFree

def written (slots : List (Option (String × Json))) : Fields := slots.filterMap id

section Lookup
variable {α : Type} (key k : String) (slots : List (Option (String × Json)))

@[simp]
theorem lookup_written_nil : (written []).lookup key = none := rfl

@[simp]
theorem lookup_written_entry (v : Json) :
    (written (entry k v :: slots)).lookup key =
      if key = k then some v else (written slots).lookup key :=
  Bindings.lookup_cons_eq_ite k key v (written slots)

@[simp]
theorem lookup_written_optional (write : α → Json) (value : Option α) :
    (written (optional k write value :: slots)).lookup key =
      if key = k then (value.map write).or ((written slots).lookup key)
      else (written slots).lookup key := by
  cases value with
  | none => exact (ite_self _).symm
  | some a => exact lookup_written_entry key k slots (write a)

def itemsUnlessNil (write : α → Json) (items : List α) : Option Json :=
  if items.isEmpty then none else some (.arr (items.map write))

@[simp]
theorem lookup_written_unlessEmpty (write : α → Json) (items : List α) :
    (written (unlessEmpty k write items :: slots)).lookup key =
      if key = k then (itemsUnlessNil write items).or ((written slots).lookup key)
      else (written slots).lookup key := by
  cases items with
  | nil => exact (ite_self _).symm
  | cons a items => exact lookup_written_entry key k slots (.arr ((a :: items).map write))

end Lookup

def keys : Json → List String
  | .obj fields => fields.map (·.1)
  | _ => []

/-- The key of a field that is left out unless something is held in it. -/
def keyIf (key : String) (held : Bool) : List String := if held then [key] else []

section Keys
variable {α : Type} (key : String) (slots : List (Option (String × Json)))

@[simp]
theorem keys_object_nil : (object []).keys = [] := rfl

@[simp]
theorem keys_object_entry (v : Json) :
    (object (entry key v :: slots)).keys = key :: (object slots).keys := rfl

@[simp]
theorem keys_object_optional (write : α → Json) (value : Option α) :
    (object (optional key write value :: slots)).keys =
      keyIf key value.isSome ++ (object slots).keys := by
  cases value with
  | none => rfl
  | some a => rfl

@[simp]
theorem keys_object_unlessEmpty (write : α → Json) (items : List α) :
    (object (unlessEmpty key write items :: slots)).keys =
      keyIf key (!items.isEmpty) ++ (object slots).keys := by
  cases items with
  | nil => rfl
  | cons a items => rfl

end Keys

section Absent
variable {α : Type} (read : Json → Option α)

def orNone : Option Json → Option (Option α)
  | none => some none
  | some .null => some none
  | some j => (read j).map some

def orNil : Option Json → Option (List α)
  | none => some []
  | some j => list read j

@[simp]
theorem Fields.required_eq (fs : Fields) (key : String) :
    fs.required key read = (fs.lookup key).bind read := rfl

@[simp]
theorem Fields.optional_eq (fs : Fields) (key : String) :
    fs.optional key read = orNone read (fs.lookup key) := rfl

@[simp]
theorem Fields.listOrEmpty_eq (fs : Fields) (key : String) :
    fs.listOrEmpty key read = orNil read (fs.lookup key) := rfl

end Absent

/-- The fields of a record with the given keys: each is left out or has a value under its key. -/
inductive Keyed : List String → List (Option (String × Json)) → Prop where
  | nil : Keyed [] []
  | absent {keys slots} (key : String) (rest : Keyed keys slots) :
    Keyed (key :: keys) (none :: slots)
  | entry {keys slots} (key : String) {v : Json} (hv : v.NullFree) (rest : Keyed keys slots) :
    Keyed (key :: keys) (Json.entry key v :: slots)

namespace Keyed
variable {keys : List String} {slots : List (Option (String × Json))}

theorem sublist (h : Keyed keys slots) : ((written slots).map (·.1)).Sublist keys := by
  induction h with
  | nil => exact .slnil
  | absent key _ ih => exact ih.cons key
  | entry key _ _ ih => exact ih.cons_cons key

/-- Different keys stand there once each, whichever of them are asked for. -/
theorem distinctKeys (h : Keyed keys slots) (hkeys : keys.Nodup) (asked : List String) :
    Json.distinctKeys asked (written slots) := by
  have hnodup : ((written slots).map (·.1)).Nodup := h.sublist.nodup hkeys
  refine List.all_eq_true.mpr fun key _ => decide_eq_true ?_
  have hcount := List.nodup_iff_count.mp hnodup key
  rwa [List.count, List.countP_map, List.countP_eq_length_filter] at hcount

private theorem record?_object (h : Keyed keys slots) (hkeys : keys.Nodup) :
    (object slots).record? keys = some (written slots) :=
  if_pos (h.distinctKeys hkeys keys)

theorem nullFree_object (h : Keyed keys slots) : (object slots).NullFree := by
  refine .obj ?_
  induction h with
  | nil => exact nofun
  | absent _ _ ih => exact ih
  | entry key hv _ ih => exact List.forall_mem_cons.mpr ⟨hv, ih⟩

end Keyed

namespace Codec

theorem string : Codec .str string := ⟨fun _ => rfl, .str⟩

theorem boolean : Codec .bool boolean := ⟨fun _ => rfl, .bool⟩

private theorem natBelow_toNat {bound n : Nat} (h : n < bound) :
    natBelow bound (.int n) = some n := by
  rw [natBelow, if_pos (by omega), Int.toNat_natCast]

theorem uint32 : Codec (fun n => .int n.toNat) uint32 := by
  refine ⟨fun n => ?_, fun n => .int n.toNat⟩
  rw [Json.uint32, natBelow_toNat n.toNat_lt_size, Option.map_some, UInt32.ofNat_toNat]

theorem uint64 : Codec (fun n => .int n.toNat) uint64 := by
  refine ⟨fun n => ?_, fun n => .int n.toNat⟩
  rw [Json.uint64, natBelow_toNat n.toNat_lt_size, Option.map_some, UInt64.ofNat_toNat]

variable {α : Type} {write : α → Json} {read : Json → Option α}

theorem bind_write (h : Codec write read) (a : α) : (some (write a)).bind read = some a :=
  h.read_write a

private theorem mapM_map (h : Codec write read) (items : List α) :
    (items.map write).mapM read = some items := by
  induction items with
  | nil => rfl
  | cons a items ih => simp [h.read_write, ih]

theorem nullFree_items (h : Codec write read) (items : List α) :
    (Json.arr (items.map write)).NullFree := by
  refine .arr fun j hj => ?_
  obtain ⟨a, -, rfl⟩ := List.mem_map.mp hj
  exact h.nullFree a

theorem list (h : Codec write read) : Codec (fun items => .arr (items.map write)) (list read) :=
  ⟨h.mapM_map, h.nullFree_items⟩

/-- A field with a codec that may be left out. -/
theorem keyed_optional (h : Codec write read) {keys : List String}
    {slots : List (Option (String × Json))} (key : String) (value : Option α)
    (rest : Keyed keys slots) : Keyed (key :: keys) (optional key write value :: slots) := by
  cases value with
  | none => exact .absent key rest
  | some a => exact .entry key (h.nullFree a) rest

theorem keyed_unlessEmpty (h : Codec write read) {keys : List String}
    {slots : List (Option (String × Json))} (key : String) (items : List α)
    (rest : Keyed keys slots) : Keyed (key :: keys) (unlessEmpty key write items :: slots) := by
  cases items with
  | nil => exact .absent key rest
  | cons a items => exact .entry key (h.nullFree_items (a :: items)) rest

/-- A value that was left out is none, and one that was not left out is not null. -/
theorem orNone_map (h : Codec write read) (value : Option α) :
    orNone read (value.map write) = some value := by
  cases value with
  | none => rfl
  | some a =>
    have hread := h.read_write a
    have hfree := h.nullFree a
    rw [Option.map_some]
    cases hw : write a with
    | null =>
      rw [hw] at hfree
      cases hfree
    | _ => rw [hw] at hread; simp [orNone, hread]

theorem orNil_some (h : Codec write read) (items : List α) :
    orNil read (some (.arr (items.map write))) = some items :=
  h.list.read_write items

theorem orNil_itemsUnlessNil (h : Codec write read) (items : List α) :
    orNil read (itemsUnlessNil write items) = some items := by
  cases items with
  | nil => rfl
  | cons a items => exact h.orNil_some (a :: items)

/-- A codec for records, from the fields that are written. -/
theorem of_keyed {keys : List String} {slots : α → List (Option (String × Json))}
    {fields? : Fields → Option α} (hkeys : keys.Nodup) (hkeyed : ∀ a, Keyed keys (slots a))
    (hread : ∀ a, fields? (written (slots a)) = some a) :
    Codec (fun a => object (slots a)) (fun j => j.record? keys >>= fields?) := by
  refine ⟨fun a => ?_, fun a => (hkeyed a).nullFree_object⟩
  rw [(hkeyed a).record?_object hkeys]
  exact hread a

end Codec

end PipeQuery.Json
