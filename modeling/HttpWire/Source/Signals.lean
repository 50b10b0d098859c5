import HttpWire.Source.Basic

/-!
# What a reader sees of a source

To a reader a source is a row of signals: octets and failures.  Chunk borders,
empty chunks and interruptions do not show.  The main statement is
`signals_takeThrough`: what a read takes, whether it fails, and the signals
that it leaves are determined by the signals that were there.
-/

namespace HttpWire

/-- One thing that a reader sees. -/
inductive Signal where
  | octet (b : UInt8)
  | failure
  deriving DecidableEq, Repr

/-- What a read has taken from a row of signals and left of it. -/
structure Signal.Taken where
  octets : Octets
  rest : List Signal
  failed : Bool
  deriving DecidableEq, Repr

/-- Takes octets through the first one that is `last`, at most `limit` of
them; a failure ends the read and is used up. -/
def Signal.takeThrough (last : UInt8 → Bool) : Nat → List Signal → Signal.Taken
  | 0, signals => ⟨[], signals, false⟩
  | _ + 1, [] => ⟨[], [], false⟩
  | _ + 1, .failure :: rest => ⟨[], rest, true⟩
  | limit + 1, .octet b :: rest =>
    if last b then ⟨[b], rest, false⟩
    else
      let taken := takeThrough last limit rest
      { taken with octets := b :: taken.octets }

namespace Source

/-- The signals that a source still holds. -/
def signals : Source → List Signal
  | [] => []
  | .data octets :: rest => octets.map .octet ++ signals rest
  | .interrupted :: rest => signals rest
  | .failed :: rest => .failure :: signals rest

variable (last : UInt8 → Bool) (limit : Nat) (s : Source)

/-- **A read sees only the signals**: it takes the same octets, ends the same
way and leaves the same signals, however they are delivered. -/
theorem signals_takeThrough :
    Signal.takeThrough last limit s.signals =
      ⟨(s.takeThrough last limit).octets, (s.takeThrough last limit).rest.signals,
        (s.takeThrough last limit).failed⟩ := by
  fun_induction takeThrough last limit s <;>
    simp_all [signals, Signal.takeThrough, Taken.cons]

/-- The octets that remain are those among the signals. -/
theorem remaining_eq_filterMap :
    s.remaining = s.signals.filterMap fun
      | .octet b => some b
      | .failure => none := by
  induction s with
  | nil => rfl
  | cons e rest ih =>
    cases e with
    | data octets =>
      rw [remaining, signals, List.filterMap_append, List.filterMap_map, ← ih]
      exact congrArg (· ++ remaining rest) List.filterMap_some.symm
    | interrupted => exact ih
    | failed => exact ih

end Source
end HttpWire
