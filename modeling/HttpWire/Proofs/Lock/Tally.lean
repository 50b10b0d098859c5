import HttpWire.Lock.Session

/-!
# A lock tallies with its guards

A lock holds a number of readers and whether there is a writer.  Its guards
are held elsewhere, and each gives back what it took when it is dropped.  The
two agree when the readers are the shared guards, there is a writer exactly
when there is a unique guard, and the two kinds never stand together
(`Tallies`).

Taking the lock keeps the agreement because the lock admits only whom it may;
releasing it keeps the agreement because the guard is among those that are
counted, so there is a reader to take away, or a writer.  It makes no
difference whether the lock is taken by a call that came at once or by one
that was blocked (`Tallied.step`).
-/

namespace HttpWire
namespace Lock

/-- The lock stands for its guards: the readers are the shared ones, a writer
is a unique one, and there are not both. -/
structure Tallies (l : Lock) (guards : List Guard) : Prop where
  readers : l.readers = guards.countP (·.mode = .shared)
  writers : guards.countP (·.mode = .unique) = l.writer.toNat
  apart : l.writer = true → l.readers = 0

variable {l taken : Lock} {mode : Mode} {guards rest : List Guard} {g : Guard} {name : String}

/-! ## The lock alone -/

/-- The lock is taken exactly if it admits another holder. -/
theorem take?_eq_some_iff :
    l.take? mode = some taken ↔ l.admits mode = true ∧ taken = l.take mode := by
  unfold take?
  split <;> simp [*, eq_comm]

/-- Releasing what was just taken leaves the lock as it was. -/
theorem release_take (hadmits : l.admits mode = true) : (l.take mode).release mode = l := by
  cases l
  cases mode <;> simp_all [admits, take, release]

/-- A reader is admitted if no unique guard is held. -/
theorem Tallies.admits_shared_iff (hl : l.Tallies guards) :
    l.admits .shared = true ↔ guards.countP (·.mode = .unique) = 0 := by
  rw [hl.writers]
  cases hwriter : l.writer <;> simp [admits, hwriter]

/-- A list of guards has one of each mode only. -/
theorem countP_shared_add_unique (guards : List Guard) :
    guards.countP (·.mode = .shared) + guards.countP (·.mode = .unique) = guards.length := by
  induction guards with
  | nil => rfl
  | cons g later ih =>
      cases hmode : g.mode <;> simp [hmode] <;> omega

/-- A writer is admitted if no guard is held. -/
theorem Tallies.admits_unique_iff (hl : l.Tallies guards) :
    l.admits .unique = true ↔ guards = [] := by
  have hlength := countP_shared_add_unique guards
  rw [hl.writers, ← hl.readers] at hlength
  rw [← List.length_eq_zero_iff, ← hlength]
  cases hwriter : l.writer <;> simp [admits, hwriter]

theorem tallies_free : free.Tallies [] :=
  ⟨rfl, rfl, fun _ => rfl⟩

/-- **Taking the lock counts one guard more.** -/
theorem Tallies.take (hl : l.Tallies guards) (hadmits : l.admits mode = true) (name : String) :
    (l.take mode).Tallies (guards ++ [⟨name, mode⟩]) := by
  have hreaders := hl.readers
  have hwriters := hl.writers
  cases mode with
  | shared =>
      have hwriter : l.writer = false := by simpa [admits] using hadmits
      refine ⟨?_, ?_, ?_⟩
      · simp [Lock.take, hreaders]
      · simpa [Lock.take] using hwriters
      · intro hheld
        simp [Lock.take, hwriter] at hheld
  | unique =>
      have hfree : l.writer = false ∧ l.readers = 0 := by simpa [admits] using hadmits
      refine ⟨?_, ?_, ?_⟩
      · simpa [Lock.take] using hreaders
      · simpa [Lock.take, hfree.1] using hwriters
      · intro _
        exact hfree.2

/-- **Releasing the lock counts one guard less.**  The guard is among those
that are counted, so there is a reader or a writer to take away. -/
theorem Tallies.release (hl : l.Tallies guards) (hperm : guards.Perm (g :: rest)) :
    (l.release g.mode).Tallies rest ∧ (g.mode = .shared → 0 < l.readers) ∧
      (g.mode = .unique → l.writer = true) := by
  have hreaders := hl.readers
  have hwriters := hl.writers
  rw [hperm.countP_eq] at hreaders hwriters
  cases hmode : g.mode with
  | shared =>
      simp only [List.countP_cons, hmode, decide_true, if_true, reduceCtorEq, decide_false,
        Bool.false_eq_true, if_false, Nat.add_zero] at hreaders hwriters
      have hpos : 0 < l.readers := by omega
      refine ⟨⟨?_, hwriters, ?_⟩, fun _ => hpos, by simp⟩
      · simp [Lock.release, hreaders]
      · intro hwriter
        have hnone := hl.apart hwriter
        omega
  | unique =>
      simp only [List.countP_cons, hmode, decide_true, if_true, reduceCtorEq, decide_false,
        Bool.false_eq_true, if_false, Nat.add_zero] at hreaders hwriters
      have hwriter : l.writer = true := by
        cases hheld : l.writer with
        | true => rfl
        | false => simp [hheld] at hwriters
      refine ⟨⟨hreaders, ?_, by simp [Lock.release]⟩, by simp, fun _ => hwriter⟩
      simpa [Lock.release, hwriter] using hwriters

/-- A guard that is counted holds the lock in its mode. -/
theorem Tallies.holder (hl : l.Tallies guards) (hg : g ∈ guards) :
    (g.mode = .shared → 0 < l.readers) ∧ (g.mode = .unique → l.writer = true) :=
  (hl.release (List.perm_cons_erase hg)).2

namespace Session

variable {s : Session}

/-- The lock stands for the guards that are held. -/
def Tallied (s : Session) : Prop :=
  s.lock.Tallies s.guards

/-! ## The count is kept -/

theorem tallied_initial : initial.Tallied :=
  tallies_free

/-- The guards are the one that was found and all others. -/
theorem perm_cons_eraseP (hfind : guards.find? (·.name = name) = some g) :
    guards.Perm (g :: guards.eraseP (·.name = g.name)) := by
  obtain ⟨hname, front, back, rfl, hfront⟩ := List.find?_eq_some_iff_append.mp hfind
  have hname' : g.name = name := by simpa using hname
  have hothers : ∀ other ∈ front, ¬ decide (other.name = g.name) = true := by
    intro other hother
    rw [hname']
    simpa using hfront other hother
  rw [List.eraseP_append_right _ hothers, List.eraseP_cons_of_pos (by simp)]
  exact List.perm_middle

theorem Tallied.retryOne (hs : s.Tallied) (mode : Mode) : (s.retryOne mode).Tallied := by
  unfold Session.retryOne
  split
  · rename_i taken htake
    obtain ⟨hadmits, rfl⟩ := take?_eq_some_iff.mp htake
    exact Tallies.take hs hadmits _
  · exact hs

/-- Waking the blocked calls keeps the count, in whatever order they come. -/
theorem Tallied.wake (hs : s.Tallied) : s.wake.Tallied := by
  refine List.foldlRecOn (motive := Tallied) s.blocked Session.retryOne hs ?_
  intro t ht mode _
  exact ht.retryOne mode

theorem release_eq (s : Session) (mode : Mode) : s.release mode =
    if (s.lock.release mode).givesNotice mode then { s with lock := s.lock.release mode }.wake
    else { s with lock := s.lock.release mode } := rfl

/-- Releasing keeps the tally, whoever it wakes. -/
theorem Tallied.release (hs : (s.lock.release mode).Tallies s.guards) :
    (s.release mode).Tallied := by
  rw [release_eq]
  split
  · exact Tallied.wake (s := { s with lock := s.lock.release mode }) hs
  · exact hs

theorem Tallied.drop (hs : s.Tallied) (hfind : s.guard? name = some g) : (s.drop g).Tallied :=
  Tallied.release (s := { s with guards := s.guards.eraseP (·.name = g.name) })
    (Tallies.release hs (perm_cons_eraseP hfind)).1

/-- Taking the lock and keeping its guard keeps the tally. -/
theorem Tallied.keep (hs : s.Tallied) (htake : s.lock.take? mode = some taken) (name : String) :
    (s.keep taken ⟨name, mode⟩).Tallied := by
  obtain ⟨hadmits, rfl⟩ := take?_eq_some_iff.mp htake
  have hkept : Tallied { s with lock := s.lock.take mode, guards := s.guards ++ [⟨name, mode⟩] } :=
    Tallies.take hs hadmits name
  unfold Session.keep
  split
  · rename_i older hfind
    have hfind' : (s.guards ++ [(⟨name, mode⟩ : Guard)]).find? (·.name = name) =
        some older := by
      rw [List.find?_append]
      exact congrArg (Option.or · _) hfind
    exact hkept.drop hfind'
  · exact hkept

/-- **An operation keeps the count.** -/
theorem Tallied.step (hs : s.Tallied) (op : Op) : (s.step op).2.Tallied := by
  cases op with
  | attempt mode name =>
      cases htake : s.lock.take? mode with
      | none =>
          simp only [Session.step, htake]
          exact hs
      | some taken =>
          simp only [Session.step, htake]
          exact hs.keep htake name
  | await mode name =>
      cases htake : s.lock.take? mode with
      | none =>
          simp only [Session.step, htake]
          exact hs
      | some taken =>
          simp only [Session.step, htake]
          exact hs.keep htake name
  | drop name =>
      cases hfind : s.guard? name with
      | none =>
          simp only [Session.step, hfind]
          exact hs
      | some g =>
          simp only [Session.step, hfind]
          exact hs.drop hfind
  | unwind mode =>
      cases htake : s.lock.take? mode with
      | none =>
          simp only [Session.step, htake]
          exact hs
      | some taken =>
          obtain ⟨hadmits, rfl⟩ := take?_eq_some_iff.mp htake
          simp only [Session.step, htake]
          apply Tallied.release
          rw [release_take hadmits]
          exact hs

/-! ## Blocked calls -/

/-- Nobody is blocked who could have the lock. -/
def Settled (s : Session) : Prop :=
  ∀ mode ∈ s.blocked, s.lock.admits mode = false

/-- Calls that would be refused stay blocked, and nothing else happens. -/
theorem retry_of_refused {calls : List Mode}
    (hrefused : ∀ mode ∈ calls, s.lock.admits mode = false) :
    calls.foldl Session.retryOne s = { s with blocked := s.blocked ++ calls } := by
  induction calls generalizing s with
  | nil => simp
  | cons mode later ih =>
      obtain ⟨hmode, hlater⟩ := List.forall_mem_cons.mp hrefused
      have hone : s.retryOne mode = { s with blocked := s.blocked ++ [mode] } := by
        simp [retryOne, take?, hmode]
      rw [List.foldl_cons, hone, ih (s := { s with blocked := s.blocked ++ [mode] }) hlater]
      simp

/-- Where nobody could have the lock, waking changes nothing. -/
theorem Settled.wake (hs : s.Settled) : s.wake = s :=
  retry_of_refused (s := { s with blocked := [] }) hs

theorem settled_of_unblocked (hnobody : s.blocked = []) : s.Settled := by
  unfold Settled
  rw [hnobody]
  exact List.forall_mem_nil _

/-- Where nobody is blocked, a release wakes nobody. -/
theorem release_of_unblocked (hnobody : s.blocked = []) (mode : Mode) :
    s.release mode = { s with lock := s.lock.release mode } := by
  have hsettled : Settled { s with lock := s.lock.release mode } := settled_of_unblocked hnobody
  rw [release_eq, hsettled.wake, ite_self]

end Session
end Lock
end HttpWire
