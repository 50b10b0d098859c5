import HttpWire.Text.Basic

/-!
# Sources

A source delivers octets in chunks.  Between two chunks a read may be
interrupted, which means nothing, or fail, which is reported once and then
forgotten.  How the octets are cut into chunks is up to the source, and a
reader must not depend on it.

All reading goes through `takeThrough`: octets are taken one by one up to and
including the first that ends the piece, but never more than a given number.
Once it has its last octet the source is not looked at again, so a failure
that stands right behind stays where it is.
-/

namespace HttpWire

/-- One thing that a source delivers. -/
inductive Event where
  /-- A chunk of octets, possibly empty. -/
  | data (octets : Octets)
  /-- A read that was interrupted and can be taken up again. -/
  | interrupted
  /-- A read that failed. -/
  | failed
  deriving DecidableEq, Repr

/-- What a source is still going to deliver, in order. -/
abbrev Source := List Event

namespace Source

/-- The octets still to come, failures left out. -/
def remaining : Source → Octets
  | [] => []
  | .data octets :: rest => octets ++ remaining rest
  | .interrupted :: rest => remaining rest
  | .failed :: rest => remaining rest

/-- The number of octets and events still to come. -/
def weight : Source → Nat
  | [] => 0
  | .data octets :: rest => octets.length + 1 + weight rest
  | .interrupted :: rest => 1 + weight rest
  | .failed :: rest => 1 + weight rest

/-- What a read has taken from a source and left in it. -/
structure Taken where
  octets : Octets
  rest : Source
  failed : Bool
  deriving DecidableEq, Repr

/-- One more octet in front of what was taken. -/
def Taken.cons (b : UInt8) (taken : Taken) : Taken :=
  { taken with octets := b :: taken.octets }

/-- Takes octets through the first one that is `last`, at most `limit` of
them.  Interruptions and empty chunks are passed over; a failure ends the read
and is used up. -/
def takeThrough (last : UInt8 → Bool) : Nat → Source → Taken
  | 0, s => ⟨[], s, false⟩
  | _ + 1, [] => ⟨[], [], false⟩
  | _ + 1, .failed :: s => ⟨[], s, true⟩
  | limit + 1, .interrupted :: s => takeThrough last (limit + 1) s
  | limit + 1, .data [] :: s => takeThrough last (limit + 1) s
  | limit + 1, .data (b :: octets) :: s =>
    if last b then ⟨[b], .data octets :: s, false⟩
    else (takeThrough last limit (.data octets :: s)).cons b
termination_by _ s => s.weight
decreasing_by all_goals simp [weight]

/-- Takes `count` octets, fewer at the end or at a failure. -/
def takeOctets (count : Nat) (s : Source) : Taken :=
  takeThrough (fun _ => false) count s

variable (last : UInt8 → Bool) (limit : Nat) (s : Source)

/-- What is taken and what is left weigh no more than the source did. -/
theorem takeThrough_weight :
    (takeThrough last limit s).octets.length + (takeThrough last limit s).rest.weight
      ≤ s.weight := by
  fun_induction takeThrough last limit s with
  | case1 s => simp
  | case2 n => simp
  | case3 n s => simp [weight]
  | case4 limit s ih => simp only [weight]; omega
  | case5 limit s ih => simp only [weight]; omega
  | case6 limit b octets s hb => simp [weight]; omega
  | case7 limit b octets s hb ih =>
    simp only [Taken.cons, weight, List.length_cons] at ih ⊢
    omega

/-- Never more than `limit` octets are taken. -/
theorem takeThrough_length_le :
    (takeThrough last limit s).octets.length ≤ limit := by
  fun_induction takeThrough last limit s <;> simp_all [Taken.cons]

/-- **No octet is lost without a failure**: what was taken and what remains
are together what there was. -/
theorem takeThrough_append_remaining :
    (takeThrough last limit s).octets ++ (takeThrough last limit s).rest.remaining
      = s.remaining := by
  fun_induction takeThrough last limit s <;> simp_all [Taken.cons, remaining]

end Source
end HttpWire
