import HttpWire.Proofs.Lock.Settling

/-!
# Notices that are taken up late

A call that is blocked sleeps until it is given notice.  Then it tries again,
though not at once: others may have come to the lock by that time, and whoever
is refused goes back to sleep, until the next notice.  A hall keeps those who
have been given notice apart from those who sleep, and leaves open when each
of them tries again, and whether somebody wakes without notice.

Even so no notice is missed: nobody sleeps who could have the lock
(`Hall.sleepers_refused`).  To do an operation with all that it wakes is one
of the ways to go on from it (`Hall.step_eq`).
-/

namespace HttpWire
namespace Lock

/-- A session in which those who are blocked sleep, and the calls that have
been given notice and are about to try again. -/
structure Hall where
  session : Session
  /-- The calls that are about to try again, the latest last. -/
  awake : List Mode
  deriving DecidableEq, Repr

namespace Hall

/-- What may happen in a hall. -/
inductive Move where
  /-- An operation, which may give notice to all who sleep. -/
  | act (op : Op)
  /-- The call at a place among those who are awake tries again. -/
  | retry (place : Nat)
  /-- The call at a place among those who sleep wakes without notice. -/
  | stir (place : Nat)
  deriving DecidableEq, Repr

/-- A hall before anything happened. -/
def initial : Hall :=
  ⟨Session.initial, []⟩

/-- Gives notice to all who sleep. -/
def notify (h : Hall) : Hall :=
  ⟨{ h.session with blocked := [] }, h.awake ++ h.session.blocked⟩

/-- Whether an operation gives notice. -/
def notifies (h : Hall) (op : Op) : Bool :=
  (h.session.released op).any fun (before, mode) => (before.release mode).givesNotice mode

/-- Does an operation, which may give notice. -/
def act (h : Hall) (op : Op) : Hall :=
  if h.notifies op then notify ⟨(h.session.act op).2, h.awake⟩
  else ⟨(h.session.act op).2, h.awake⟩

/-- The hall after a move. -/
def move (h : Hall) : Move → Hall
  | .act op => h.act op
  | .retry place =>
    match h.awake[place]? with
    | some mode => ⟨h.session.retryOne mode, h.awake.eraseIdx place⟩
    | none => h
  | .stir place =>
    match h.session.blocked[place]? with
    | some mode =>
      ⟨{ h.session with blocked := h.session.blocked.eraseIdx place }, h.awake ++ [mode]⟩
    | none => h

/-- The hall after moves, one after the other. -/
def through (h : Hall) (moves : List Move) : Hall :=
  moves.foldl move h

variable {h : Hall}

/-- An operation gives notice exactly when it frees the lock. -/
theorem notifies_eq_frees (hcount : h.session.Tallied) (op : Op) :
    h.notifies op = h.session.frees op := by
  refine Bool.eq_iff_iff.mpr ?_
  unfold notifies Session.frees
  rw [List.any_eq_true, List.any_eq_true]
  refine exists_congr fun ⟨before, mode⟩ => and_congr_right fun hmem => ?_
  obtain ⟨-, guards, g, hcounted, hg, rfl⟩ := hcount.released hmem
  rw [decide_eq_true_iff]
  exact hcounted.givesNotice_iff hg

/-- **A move keeps the count, and leaves nobody asleep who could have the
lock.** -/
theorem settled_move (hcount : h.session.Tallied) (hs : h.session.Settled) (m : Move) :
    (h.move m).session.Tallied ∧ (h.move m).session.Settled := by
  cases m with
  | act op =>
      simp only [move, act]
      split
      · exact ⟨hcount.act op, Session.settled_of_unblocked rfl⟩
      · rename_i hquiet
        rw [notifies_eq_frees hcount] at hquiet
        exact ⟨hcount.act op, hs.act hcount (Bool.eq_false_iff.mpr hquiet)⟩
  | retry place =>
      simp only [move]
      split
      · exact ⟨hcount.retryOne _, hs.retryOne _⟩
      · exact ⟨hcount, hs⟩
  | stir place =>
      simp only [move]
      split
      · exact ⟨hcount, fun mode hmode => hs mode (List.mem_of_mem_eraseIdx hmode)⟩
      · exact ⟨hcount, hs⟩

/-- **Every move keeps the tally, and nobody sleeps who could have the lock.** -/
theorem settled_through (hcount : h.session.Tallied) (hs : h.session.Settled)
    (moves : List Move) :
    (h.through moves).session.Tallied ∧ (h.through moves).session.Settled := by
  induction moves generalizing h with
  | nil => exact ⟨hcount, hs⟩
  | cons m later ih =>
      obtain ⟨hcount', hs'⟩ := settled_move hcount hs m
      exact ih hcount' hs'

/-- **No notice is missed.**  Whatever has been done, and whenever those who
were given notice have tried again: a reader sleeps only while a unique guard
is held, a writer only while some guard is, and where no guard is held whoever
waits has been given notice. -/
theorem sleepers_refused (moves : List Move) :
    let h := initial.through moves
    (.shared ∈ h.session.blocked → h.session.held .unique = 1) ∧
      (.unique ∈ h.session.blocked → h.session.guards ≠ []) ∧
      (h.session.guards = [] → h.session.blocked = []) := by
  intro h
  obtain ⟨hcount, hs⟩ :=
    settled_through (h := initial) Session.tallied_initial Session.settled_initial moves
  exact ⟨hs.unique_of_reader hcount, hs.guards_of_writer hcount, hs.nobody_blocked hcount⟩

/-- All who are awake may try again in the order in which they stand. -/
theorem through_retry (s : Session) (calls : List Mode) :
    (⟨s, calls⟩ : Hall).through (List.replicate calls.length (.retry 0)) =
      ⟨calls.foldl Session.retryOne s, []⟩ := by
  induction calls generalizing s with
  | nil => rfl
  | cons mode later ih => exact ih (s.retryOne mode)

/-- **An operation with all that it wakes is done by moves**: the operation,
and those who were given notice trying again one after the other. -/
theorem step_eq {s : Session} (hcount : s.Tallied) (op : Op) :
    ∃ count, (⟨(s.step op).2, []⟩ : Hall) =
      (⟨s, []⟩ : Hall).through (.act op :: List.replicate count (.retry 0)) := by
  have hnotifies : notifies ⟨s, []⟩ op = s.frees op := notifies_eq_frees hcount op
  rw [hcount.step_eq op]
  by_cases hfrees : s.frees op = true
  · have hact : (⟨s, []⟩ : Hall).act op =
        ⟨{ (s.act op).2 with blocked := [] }, (s.act op).2.blocked⟩ := by
      rw [act, hnotifies, if_pos hfrees]
      rfl
    refine ⟨(s.act op).2.blocked.length, ?_⟩
    unfold through
    rw [List.foldl_cons, move, hact, if_pos hfrees]
    exact (through_retry _ _).symm
  · have hact : (⟨s, []⟩ : Hall).act op = ⟨(s.act op).2, []⟩ := by
      rw [act, hnotifies, if_neg hfrees]
    refine ⟨0, ?_⟩
    unfold through
    rw [List.foldl_cons, move, hact, if_neg hfrees]
    rfl

end Hall
end Lock
end HttpWire
