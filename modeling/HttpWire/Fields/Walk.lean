import HttpWire.Fields.Basic

/-!
# Walking over fields

A walk hands out the entries of a map one at a time, in order of insertion,
and always knows how many it still has.
-/

namespace HttpWire

/-- The entries that a walk has still ahead of it. -/
structure Walk where
  ahead : List Entry
  deriving DecidableEq, Repr

namespace Walk

/-- A walk that starts at the first entry of a map. -/
def start {hash : Text → UInt64} (m : FieldMap hash) : Walk :=
  ⟨m.toList⟩

/-- The next entry, if there is one, and the walk behind it. -/
def next : Walk → Option Entry × Walk
  | ⟨[]⟩ => (none, ⟨[]⟩)
  | ⟨e :: rest⟩ => (some e, ⟨rest⟩)

/-- What the next `n` steps hand out, and the walk behind them. -/
def steps : Nat → Walk → List (Option Entry) × Walk
  | 0, w => ([], w)
  | n + 1, w =>
    let later := steps n w.next.2
    (w.next.1 :: later.1, later.2)

/-- How many entries are ahead. -/
def left (w : Walk) : Nat :=
  w.ahead.length

/-- The least and the greatest number of entries that may be ahead. -/
def bounds (w : Walk) : Nat × Nat :=
  (w.left, w.left)

end Walk
end HttpWire
