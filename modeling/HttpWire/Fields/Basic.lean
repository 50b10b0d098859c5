import HttpWire.Text.Caseless
import Std.Data.HashMap

/-!
# Fields

A map from names to values that keeps every entry in the order of insertion
and looks names up without regard to ASCII case.  A name may occur many times,
and inserting never overwrites.

Beside the entries stands an index from the hash of a name to the positions of
the entries with that hash.  A look-up takes the positions of one hash and
keeps those whose name really is the one asked for, so two names with one hash
do no harm.  Nothing here depends on which hash it is, so the hash is a
parameter; `Fields` is the map under `Text.caselessHash`, with its hasher still
to be chosen.
-/

namespace HttpWire

/-- A name and its value. -/
abbrev Entry := Text × Text

/-- Entries in order of insertion, with an index by the hash of the name. -/
structure FieldMap (hash : Text → UInt64) where
  entries : Array Entry
  index : Std.HashMap UInt64 (Array Nat)

namespace FieldMap

variable {hash : Text → UInt64}

/-- The map without entries. -/
def empty : FieldMap hash :=
  ⟨#[], ∅⟩

/-- A map without entries, with room for `capacity` of them. -/
def withCapacity (capacity : Nat) : FieldMap hash :=
  ⟨Array.emptyWithCapacity capacity, Std.HashMap.emptyWithCapacity capacity⟩

instance : Inhabited (FieldMap hash) := ⟨empty⟩

/-- Adds an entry behind all others. -/
def insert (m : FieldMap hash) (name value : Text) : FieldMap hash where
  entries := m.entries.push (name, value)
  index := m.index.alter (hash name) fun positions =>
    some ((positions.getD #[]).push m.entries.size)

/-- Adds entries one after the other. -/
def extend (m : FieldMap hash) (entries : List Entry) : FieldMap hash :=
  entries.foldl (fun m e => m.insert e.1 e.2) m

/-- The map with the given entries. -/
def ofList (entries : List Entry) : FieldMap hash :=
  empty.extend entries

/-- The entries in order of insertion. -/
def toList (m : FieldMap hash) : List Entry :=
  m.entries.toList

/-- Adds the entries of another map. -/
def append (m other : FieldMap hash) : FieldMap hash :=
  m.extend other.toList

/-- Takes all entries away. -/
def clear (m : FieldMap hash) : FieldMap hash :=
  { m with entries := #[], index := ∅ }

/-- The number of entries. -/
def size (m : FieldMap hash) : Nat :=
  m.entries.size

/-- Whether there is no entry. -/
def isEmpty (m : FieldMap hash) : Bool :=
  m.entries.isEmpty

/-- The positions of the entries whose names have a hash. -/
def positions (m : FieldMap hash) (h : UInt64) : List Nat :=
  (m.index.getD h #[]).toList

/-- The values under a name, in order of insertion. -/
def findAll (m : FieldMap hash) (name : Text) : List Text :=
  (((m.positions (hash name)).filterMap (m.entries[·]?)).filter
    (fun e => e.1.caselessEq name)).map (·.2)

/-- The first value under a name. -/
def get? (m : FieldMap hash) (name : Text) : Option Text :=
  (m.findAll name).head?

/-- Whether a name has an entry. -/
def contains (m : FieldMap hash) (name : Text) : Bool :=
  (m.get? name).isSome

/-- The number of entries under a name. -/
def count (m : FieldMap hash) (name : Text) : Nat :=
  (m.findAll name).length

/-- Two maps are the same if both their entries and their indexes are. -/
instance : BEq (FieldMap hash) where
  beq a b := a.entries == b.entries && a.index == b.index

variable (m : FieldMap hash) (name value : Text)

/-- The empty map has no entries. -/
@[simp] theorem toList_empty : (empty : FieldMap hash).toList = [] := rfl

/-- Inserting adds one entry at the end. -/
@[simp] theorem toList_insert : (m.insert name value).toList = m.toList ++ [(name, value)] := by
  simp [insert, toList]

/-- Extending adds the given entries at the end. -/
@[simp] theorem toList_extend (entries : List Entry) :
    (m.extend entries).toList = m.toList ++ entries := by
  induction entries generalizing m with
  | nil => simp [extend]
  | cons e rest ih =>
    have h := ih (m.insert e.1 e.2)
    simp only [extend, List.foldl_cons] at h ⊢
    rw [h, toList_insert, List.append_assoc]
    rfl

/-- A map made of entries has just these. -/
@[simp] theorem toList_ofList (entries : List Entry) :
    (ofList entries : FieldMap hash).toList = entries := by
  simp [ofList]

/-- Adding entries in two parts. -/
theorem extend_append (first later : List Entry) :
    m.extend (first ++ later) = (m.extend first).extend later :=
  List.foldl_append

/-- A map made of two rows of entries is that of the first with that of the
second appended. -/
theorem ofList_append (first later : List Entry) :
    (ofList (first ++ later) : FieldMap hash) = (ofList first).append (ofList later) := by
  rw [append, toList_ofList, ofList, extend_append]
  rfl

/-- Appending a map adds its entries at the end. -/
@[simp] theorem toList_append (other : FieldMap hash) :
    (m.append other).toList = m.toList ++ other.toList :=
  toList_extend m other.toList

/-- A cleared map has no entries. -/
@[simp] theorem toList_clear : m.clear.toList = [] := by
  simp [clear, toList]

/-- The size is the number of entries. -/
theorem size_eq_length : m.size = m.toList.length := by
  simp [size, toList]

/-- A map is empty when it has no entries. -/
theorem isEmpty_eq : m.isEmpty = m.toList.isEmpty := by
  simp [isEmpty, toList]

/-- Inserting makes a map larger by one. -/
theorem size_insert : (m.insert name value).size = m.size + 1 := by
  simp [size_eq_length]

end FieldMap

/-- Fields under the hash that does not see ASCII case. -/
abbrev Fields [Hasher] := FieldMap Text.caselessHash

end HttpWire
