import HttpWire.Proofs.Lock.Holders

/-!
# Nobody is blocked for nothing

Calls that are blocked try again when a release gives notice.  A reader that
leaves others behind gives none, and no call is lost by that: a release gives
notice exactly when it frees the lock (`Tallies.givesNotice_iff`), and whoever
was refused before one that does not is refused after it.

So an operation comes to what it does alone, unless it frees the lock, and then
the blocked calls are woken (`Tallied.step_eq`).  Before and after, nobody is
blocked who could have the lock (`Settled.step`).
-/

namespace HttpWire
namespace Lock

variable {l taken : Lock} {mode : Mode} {guards : List Guard} {g : Guard}

/-! ## Refusals -/

/-- Who is refused is refused after somebody else has come in. -/
theorem refused_take (hrefused : l.admits mode = false) (other : Mode) :
    (l.take other).admits mode = false := by
  cases other <;> cases mode <;> simp_all [admits, take]

/-- Whoever is refused stays refused when another one has taken the lock. -/
theorem refused_of_taken (htaken : taken = l ∨ ∃ other, l.take? other = some taken)
    (hrefused : l.admits mode = false) : taken.admits mode = false := by
  rcases htaken with rfl | ⟨other, htake⟩
  · exact hrefused
  · obtain ⟨-, rfl⟩ := take?_eq_some_iff.mp htake
    exact refused_take hrefused other

/-- Beside a shared guard there is some reader and no writer. -/
theorem Tallies.writer_of_shared (hl : l.Tallies guards) (hg : g ∈ guards)
    (hmode : g.mode = .shared) : l.writer = false ∧ 0 < l.readers := by
  have hreaders : 0 < l.readers := (hl.holder hg).1 hmode
  refine ⟨?_, hreaders⟩
  cases hwriter : l.writer with
  | false => rfl
  | true => exact absurd (hl.apart hwriter) (Nat.ne_of_gt hreaders)

/-- Releasing a unique guard leaves a lock that nobody holds. -/
theorem Tallies.release_of_unique (hl : l.Tallies guards) (hg : g ∈ guards)
    (hmode : g.mode = .unique) : l.release g.mode = free := by
  have hreaders : l.readers = 0 := hl.apart ((hl.holder hg).2 hmode)
  rw [hmode]
  exact congrArg (Lock.mk · false) hreaders

/-- **A release gives notice exactly when it frees the lock.** -/
theorem Tallies.givesNotice_iff (hl : l.Tallies guards) (hg : g ∈ guards) :
    (l.release g.mode).givesNotice g.mode = true ↔ l.release g.mode = free := by
  cases hmode : g.mode with
  | shared =>
      have hwriter := (hl.writer_of_shared hg hmode).1
      simp [givesNotice, Lock.release, free, hwriter]
  | unique =>
      rw [← hmode, hl.release_of_unique hg hmode, hmode]
      exact iff_of_true rfl rfl

/-- **Who is refused before a release is refused after it**, unless it frees
the lock: only writers can have been refused, and readers are left. -/
theorem Tallies.refused_release (hl : l.Tallies guards) (hg : g ∈ guards)
    (hheld : l.release g.mode ≠ free) (hrefused : l.admits mode = false) :
    (l.release g.mode).admits mode = false := by
  cases hmode : g.mode with
  | shared =>
      -- Readers hold the lock, so it can have refused writers only.
      obtain ⟨hwriter, hreaders⟩ := hl.writer_of_shared hg hmode
      cases mode with
      | shared => simp [admits, hwriter] at hrefused
      | unique =>
          rw [hmode] at hheld
          simpa [admits, Lock.release, free, hwriter] using hheld
  | unique => exact absurd (hl.release_of_unique hg hmode) hheld

namespace Session

variable {s : Session} {op : Op}

/-! ## Operations -/

/-- Whether an operation makes a release that leaves the lock with nobody. -/
def frees (s : Session) (op : Op) : Bool :=
  (s.released op).any fun (before, mode) => before.release mode = Lock.free

/-- What a release comes to if its guard is counted. -/
theorem release_of_tallies (hl : s.lock.Tallies guards) (hg : g ∈ guards) :
    s.release g.mode =
      if s.lock.release g.mode = Lock.free then { s with lock := s.lock.release g.mode }.wake
      else { s with lock := s.lock.release g.mode } := by
  simp only [release_eq, hl.givesNotice_iff hg]

/-- Without a release the lock does not become free. -/
theorem frees_of_not_released (hreleased : s.released op = []) : s.frees op = false := by
  rw [frees, hreleased, List.any_nil]

/-- One release makes the lock free if it leaves no holder. -/
theorem frees_of_released {before : Lock} (hreleased : s.released op = [(before, mode)]) :
    s.frees op = true ↔ before.release mode = Lock.free := by
  rw [frees, hreleased, List.any_cons, List.any_nil, Bool.or_false, decide_eq_true_iff]

/-- **What an operation comes to.**  It is done alone; and if it frees the
lock, all who are blocked are woken. -/
theorem Tallied.step_eq (hs : s.Tallied) (op : Op) :
    s.step op =
      ((s.act op).1, if s.frees op = true then (s.act op).2.wake else (s.act op).2) := by
  cases effect s op with
  | nothing answer hanswer hreleased hact hstep =>
      rw [hact, hstep, frees_of_not_released hreleased]
      rfl
  | blocks mode hrefused hreleased hact hstep =>
      rw [hact, hstep, frees_of_not_released hreleased]
      rfl
  | takes mode name taken htake hreleased hact hstep =>
      rw [hact, hstep, frees_of_not_released hreleased]
      rfl
  | releases before g guards answer hanswer hreleased hbefore hact hstep =>
      have hmem : (before, g.mode) ∈ s.released op := by
        rw [hreleased]
        exact List.mem_singleton.mpr rfl
      obtain ⟨-, counted, g', hcounted, hg', hmode⟩ := hs.released hmem
      have hrelease := release_of_tallies (s := { s with lock := before, guards }) hcounted hg'
      rw [hmode] at hrelease
      simp only [hact, hstep, hrelease, frees_of_released hreleased]

/-- An operation alone gives the lock to nobody who is blocked; and it adds to
them the call that it makes, if that is refused and may block. -/
theorem act_blocked (s : Session) (op : Op) :
    (s.act op).2.granted = s.granted ∧
      (((s.act op).1 ≠ .blocks ∧ (s.act op).2.blocked = s.blocked) ∨
        ∃ mode, s.lock.admits mode = false ∧ s.released op = [] ∧
          s.act op = (.blocks, { s with blocked := s.blocked ++ [mode] })) := by
  cases effect s op with
  | nothing answer hanswer hreleased hact hstep =>
      rw [hact]
      exact ⟨rfl, Or.inl ⟨hanswer, rfl⟩⟩
  | blocks mode hrefused hreleased hact hstep =>
      rw [hact]
      exact ⟨rfl, Or.inr ⟨mode, hrefused, hreleased, rfl⟩⟩
  | takes mode name taken htake hreleased hact hstep =>
      have hanswer : Answer.taken true ≠ .blocks := by decide
      rw [hact]
      exact ⟨rfl, Or.inl ⟨hanswer, rfl⟩⟩
  | releases before g guards answer hanswer hreleased hbefore hact hstep =>
      rw [hact]
      exact ⟨rfl, Or.inl ⟨hanswer, rfl⟩⟩

/-! ## Nobody waits in vain -/

theorem settled_initial : initial.Settled :=
  settled_of_unblocked rfl

/-- A blocked call that tries again leaves nobody blocked who could have the lock. -/
theorem Settled.retryOne (hs : s.Settled) (mode : Mode) : (s.retryOne mode).Settled := by
  cases hadmits : s.lock.admits mode with
  | true =>
      intro waiting hwaiting
      simp only [Session.retryOne, take?, hadmits, if_true] at hwaiting ⊢
      exact refused_take (hs waiting hwaiting) mode
  | false =>
      intro waiting hwaiting
      simp only [Session.retryOne, take?, hadmits, Bool.false_eq_true, if_false] at hwaiting ⊢
      rcases List.mem_append.mp hwaiting with hbefore | hnew
      · exact hs waiting hbefore
      · rw [List.mem_singleton.mp hnew]
        exact hadmits

/-- Whoever tries again gets the lock or is refused, and from then on it is
only taken. -/
theorem settled_wake (s : Session) : s.wake.Settled := by
  have hnobody : Settled { s with blocked := [] } := settled_of_unblocked rfl
  refine List.foldlRecOn (motive := Settled) s.blocked Session.retryOne hnobody ?_
  intro t ht mode _
  exact ht.retryOne mode

/-- An operation that does not free the lock leaves nobody blocked who could have
it. -/
theorem Settled.act (hs : s.Settled) (hcount : s.Tallied) (hheld : s.frees op = false) :
    (s.act op).2.Settled := by
  obtain ⟨-, ⟨-, hblocked⟩ | ⟨mode, hadmits, -, hact⟩⟩ := act_blocked s op
  · intro waiting hwaiting
    rw [hblocked] at hwaiting
    have hrefused := hs waiting hwaiting
    obtain ⟨hrelease, hother⟩ := lock_act s op
    cases hreleased : s.released op with
    | nil => exact refused_of_taken (hother hreleased) hrefused
    | cons r later =>
        obtain ⟨before, mode⟩ := r
        have hmem : (before, mode) ∈ s.released op := by
          rw [hreleased]
          exact List.mem_cons_self
        obtain ⟨hbefore, guards, g, hcounted, hg, rfl⟩ := hcount.released hmem
        -- The release leaves somebody: who was refused at first was refused just
        -- before it, and is refused after it.
        have hleft : before.release g.mode ≠ Lock.free := by
          have hnone := List.any_eq_false.mp hheld _ hmem
          simpa using hnone
        rw [hrelease before g.mode hmem]
        exact hcounted.refused_release hg hleft (refused_of_taken hbefore hrefused)
  · rw [hact]
    intro waiting hwaiting
    rcases List.mem_append.mp hwaiting with hbefore | hnew
    · exact hs waiting hbefore
    · rw [List.mem_singleton.mp hnew]
      exact hadmits

/-- **After every operation nobody is blocked who could have the lock.** -/
theorem Settled.step (hs : s.Settled) (hcount : s.Tallied) (op : Op) : (s.step op).2.Settled := by
  rw [hcount.step_eq op]
  split
  · exact settled_wake _
  · rename_i hheld
    exact hs.act hcount (Bool.eq_false_iff.mpr hheld)

/-- The session after operations, one after the other. -/
def after (s : Session) (ops : List Op) : Session :=
  s.through (ops.map .whole)

theorem Settled.after (hs : s.Settled) (hcount : s.Tallied) (ops : List Op) :
    (s.after ops).Settled := by
  induction ops generalizing s with
  | nil => exact hs
  | cons op later ih => exact ih (hs.step hcount op) (hcount.step op)

/-- A reader is blocked only while a unique guard is held. -/
theorem Settled.unique_of_reader (hs : s.Settled) (hcount : s.Tallied)
    (hblocked : .shared ∈ s.blocked) : s.held .unique = 1 := by
  have hrefused : s.lock.writer = true := by simpa [admits] using hs _ hblocked
  rw [hcount.held_unique, hrefused]
  rfl

/-- A writer is blocked only while some guard is held. -/
theorem Settled.guards_of_writer (hs : s.Settled) (hcount : s.Tallied)
    (hblocked : .unique ∈ s.blocked) : s.guards ≠ [] := by
  intro hguards
  have hadmits := (Tallies.admits_unique_iff hcount).mpr hguards
  rw [hs _ hblocked] at hadmits
  exact Bool.false_ne_true hadmits

/-- Where nobody holds the lock, nobody is blocked. -/
theorem Settled.nobody_blocked (hs : s.Settled) (hcount : s.Tallied) (hguards : s.guards = []) :
    s.blocked = [] := by
  refine List.eq_nil_iff_forall_not_mem.mpr ?_
  intro mode hblocked
  cases mode with
  | shared =>
      have hheld := hs.unique_of_reader hcount hblocked
      rw [held, hguards] at hheld
      exact absurd hheld (by decide)
  | unique => exact hs.guards_of_writer hcount hblocked hguards

end Session
end Lock
end HttpWire
