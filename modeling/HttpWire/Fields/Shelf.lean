import HttpWire.Fields.Basic

/-!
# Shelves of fields

A shelf holds a number of maps, all empty at first.  A history is a list of
edits, each made at one place of the shelf; an edit may take another map, or
the same one, as its source.
-/

namespace HttpWire

/-- A row of `n` maps. -/
abbrev Shelf (hash : Text → UInt64) (n : Nat) := Vector (FieldMap hash) n

/-- A change to the map at one place of a shelf of `n` maps. -/
inductive Edit (n : Nat) where
  /-- Puts a new empty map there. -/
  | renew
  /-- Puts a new empty map with room for `capacity` entries there. -/
  | reserve (capacity : Nat)
  /-- Adds one entry. -/
  | insert (name value : Text)
  /-- Adds entries one after the other. -/
  | extend (entries : List Entry)
  /-- Puts a map made of entries there. -/
  | collect (entries : List Entry)
  /-- Takes all entries away. -/
  | clear
  /-- Puts a copy of the map at place `source` there. -/
  | copy (source : Fin n)
  /-- Adds the entries of a copy of the map at place `source`. -/
  | append (source : Fin n)
  deriving DecidableEq, Repr

namespace Shelf

variable {hash : Text → UInt64} {n : Nat}

/-- The shelf on which every map is empty. -/
def empty : Shelf hash n :=
  Vector.replicate n FieldMap.empty

/-- The map that an edit leaves at `place`. -/
def edited (shelf : Shelf hash n) (place : Fin n) : Edit n → FieldMap hash
  | .renew => FieldMap.empty
  | .reserve capacity => FieldMap.withCapacity capacity
  | .insert name value => shelf[place].insert name value
  | .extend entries => shelf[place].extend entries
  | .collect entries => FieldMap.ofList entries
  | .clear => shelf[place].clear
  | .copy source => shelf[source]
  | .append source => shelf[place].append shelf[source]

/-- Makes an edit at a place; all other maps stay as they are. -/
def edit (shelf : Shelf hash n) (place : Fin n) (e : Edit n) : Shelf hash n :=
  shelf.set place (shelf.edited place e)

/-- The shelf after a history. -/
def after (history : List (Fin n × Edit n)) : Shelf hash n :=
  history.foldl (fun shelf change => edit shelf change.1 change.2) empty

variable (shelf : Shelf hash n) (place other : Fin n) (e : Edit n)

/-- An edit changes the map at its place, and only that one. -/
theorem getElem_edit :
    (edit shelf place e)[other] = if place = other then edited shelf place e else shelf[other] := by
  simp [edit, Vector.getElem_set, Fin.ext_iff]

end Shelf
end HttpWire
