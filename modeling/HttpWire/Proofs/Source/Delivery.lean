import HttpWire.Source.Line
import HttpWire.Source.Signals

/-!
# One stretch of data, delivered in many ways

Two sources deliver the same if they become equal once everything that does
not show has been left out and neighbouring chunks have been joined: once they
have been *settled*.  The failures stay in their places.

A settled source can be rebuilt from its signals alone, and settling changes
no signal.  So two sources settle alike exactly if a reader sees the same
signals in both (`settled_eq_iff`), and from there on every statement about
delivery is a statement about signals.
-/

namespace HttpWire

/-- Whether an event shows: a chunk that holds an octet, or a failure. -/
def Event.shows : Event → Bool
  | .data octets => !octets.isEmpty
  | .interrupted => false
  | .failed => true

/-- The event that delivers just one signal. -/
def Signal.event : Signal → Event
  | .octet b => .data [b]
  | .failure => .failed

namespace Source

/-- Puts an event in front of a source and joins it to a chunk that stands
first there. -/
def join : Event → Source → Source
  | .data octets, .data more :: rest => .data (octets ++ more) :: rest
  | e, rest => e :: rest

/-- A source without the events that do not show, neighbouring chunks joined. -/
def settled (s : Source) : Source :=
  (s.filter Event.shows).foldr join []

/-- The settled source that holds given signals. -/
def ofSignals (signals : List Signal) : Source :=
  (signals.map Signal.event).foldr join []

/-- Joining chunks does not change the signals. -/
theorem signals_join (e : Event) (s : Source) :
    (join e s).signals = signals [e] ++ s.signals := by
  unfold join
  split
  · simp [signals]
  · cases e <;> simp [signals]

/-- Two chunks that are joined one after the other are joined as one. -/
theorem join_data_append (front back : Octets) (s : Source) :
    join (.data front) (join (.data back) s) = join (.data (front ++ back)) s := by
  cases s with
  | nil => simp [join]
  | cons e rest => cases e <;> simp [join]

/-- The octets of a chunk, joined one by one, make up that chunk. -/
theorem foldr_join_octets (b : UInt8) (octets : Octets) (s : Source) :
    (((b :: octets).map .octet).map Signal.event).foldr join s =
      join (.data (b :: octets)) s := by
  induction octets generalizing b with
  | nil => rfl
  | cons c octets ih =>
      have hlater := ih c
      calc (((b :: c :: octets).map .octet).map Signal.event).foldr join s
          = join (.data [b]) ((((c :: octets).map .octet).map Signal.event).foldr join s) := rfl
        _ = join (.data [b]) (join (.data (c :: octets)) s) := by rw [hlater]
        _ = join (.data (b :: c :: octets)) s := join_data_append [b] (c :: octets) s

/-- Settling changes no signal. -/
theorem signals_settled (s : Source) : s.settled.signals = s.signals := by
  induction s with
  | nil => rfl
  | cons e rest ih =>
      have hcons : signals (e :: rest) = signals [e] ++ signals rest := by
        cases e <;> simp [signals]
      by_cases he : e.shows = true
      · have hjoin : settled (e :: rest) = join e (settled rest) := by
          simp [settled, he]
        rw [hjoin, signals_join, ih, hcons]
      · have hskip : settled (e :: rest) = settled rest := by
          simp [settled, he]
        have hnone : signals [e] = [] := by
          cases e <;> simp_all [Event.shows, signals]
        rw [hskip, ih, hcons, hnone, List.nil_append]

/-- A settled source is rebuilt from its signals. -/
theorem settled_eq_ofSignals (s : Source) : s.settled = ofSignals s.signals := by
  induction s with
  | nil => rfl
  | cons e rest ih =>
      cases e with
      | interrupted => exact ih
      | failed =>
          have hjoin : settled (.failed :: rest) = join .failed (settled rest) := rfl
          rw [hjoin, ih]
          rfl
      | data octets =>
          cases octets with
          | nil => exact ih
          | cons b octets =>
              have hjoin : settled (.data (b :: octets) :: rest) =
                  join (.data (b :: octets)) (settled rest) := rfl
              rw [hjoin, ih, ← foldr_join_octets]
              simp [ofSignals, signals, List.foldr_append]

/-- **Two sources settle alike exactly if they hold the same signals.** -/
theorem settled_eq_iff {s t : Source} : s.settled = t.settled ↔ s.signals = t.signals := by
  constructor
  · intro h
    rw [← signals_settled s, h, signals_settled]
  · intro h
    rw [settled_eq_ofSignals, h, ← settled_eq_ofSignals]

variable {s t : Source}

/-- Sources with the same signals hold the same data. -/
theorem remaining_eq_of_signals (h : s.signals = t.signals) : s.remaining = t.remaining := by
  rw [remaining_eq_filterMap, h, ← remaining_eq_filterMap]

/-- Two sources with the same signals give the same octets to a read, which
leaves the same signals in both. -/
theorem takeThrough_congr (h : s.signals = t.signals) (last : UInt8 → Bool) (limit : Nat) :
    (s.takeThrough last limit).octets = (t.takeThrough last limit).octets ∧
      (s.takeThrough last limit).failed = (t.takeThrough last limit).failed ∧
      (s.takeThrough last limit).rest.signals = (t.takeThrough last limit).rest.signals := by
  have hs := signals_takeThrough last limit s
  have ht := signals_takeThrough last limit t
  rw [h, ht, Signal.Taken.mk.injEq] at hs
  exact ⟨hs.1.symm, hs.2.2.symm, hs.2.1.symm⟩

/-- Two sources with the same signals have the same first line, and are left
with the same signals. -/
theorem readLine_congr (h : s.signals = t.signals) (size : UInt64) :
    (s.readLine size).1 = (t.readLine size).1 ∧
      (s.readLine size).2.signals = (t.readLine size).2.signals := by
  obtain ⟨hoctets, hfailed, hrest⟩ :=
    takeThrough_congr h (· == Line.lf) (Line.reach size)
  refine ⟨?_, hrest⟩
  simp only [readLine, Line.ofTaken, hoctets, hfailed]

end Source
end HttpWire
