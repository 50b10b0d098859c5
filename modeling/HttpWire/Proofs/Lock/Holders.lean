import HttpWire.Proofs.Lock.Tally

/-!
# Who holds a lock

A lock may be used by many at once, and blocked calls come back to it when
they are woken: at once or later, in any order, perhaps after others have had
it in between.  Turns leave all of this open.  The lock tallies with its
guards through all of them (`Tallied.through`), since every turn takes the
lock when it is admitted or releases it for a guard that is counted.

So who may have the lock can be told from the guards alone, and to take it for
a moment is the same as not to take it.  What an operation can do at all is
said once, in `effect`; the main statement is `holders_counted`.
-/

namespace HttpWire
namespace Lock

variable {taken : Lock} {mode : Mode} {g : Guard} {name : String}

/-! ## Everything done with a lock -/

/-- One turn with a lock: something is done, or a blocked call tries again. -/
inductive Turn where
  /-- An operation, with all calls that it wakes. -/
  | whole (op : Op)
  /-- An operation alone; the calls that it wakes come to it later. -/
  | alone (op : Op)
  /-- The blocked call at a place tries again. -/
  | again (place : Nat)
  deriving DecidableEq, Repr

namespace Session

variable {s : Session} {op : Op}

/-- Does one operation as if nobody were blocked; who is stays so. -/
def act (s : Session) (op : Op) : Answer × Session :=
  let done := { s with blocked := [] }.step op
  (done.1, { done.2 with blocked := s.blocked ++ done.2.blocked })

/-- The session after a turn. -/
def turn (s : Session) : Turn → Session
  | .whole op => (s.step op).2
  | .alone op => (s.act op).2
  | .again place =>
    match s.blocked[place]? with
    | some mode => { s with blocked := s.blocked.eraseIdx place }.retryOne mode
    | none => s

/-- The session after turns, one after the other. -/
def through (s : Session) (turns : List Turn) : Session :=
  turns.foldl turn s

/-- How many guards of a mode are held. -/
def held (s : Session) (mode : Mode) : Nat :=
  s.guards.countP (·.mode = mode)

/-- The releases that an operation makes: the lock just before, and the mode. -/
def released (s : Session) : Op → List (Lock × Mode)
  | .attempt mode name | .await mode name =>
    match s.lock.take? mode, s.guard? name with
    | some taken, some older => [(taken, older.mode)]
    | _, _ => []
  | .drop name => (s.guard? name).toList.map fun g => (s.lock, g.mode)
  | .unwind mode => (s.lock.take? mode).toList.map fun taken => (taken, mode)

theorem Tallied.act (hs : s.Tallied) (op : Op) : (s.act op).2.Tallied :=
  Tallied.step (s := { s with blocked := [] }) hs op

theorem Tallied.turn (hs : s.Tallied) (t : Turn) : (s.turn t).Tallied := by
  cases t with
  | whole op => exact hs.step op
  | alone op => exact hs.act op
  | again place =>
      simp only [Session.turn]
      split
      · exact Tallied.retryOne (s := { s with blocked := s.blocked.eraseIdx place }) hs _
      · exact hs

/-- **The count is kept through all turns.**  The induction is on the turns,
from any session that is counted. -/
theorem Tallied.through (hs : s.Tallied) (turns : List Turn) : (s.through turns).Tallied := by
  induction turns generalizing s with
  | nil => exact hs
  | cons t later ih => exact ih (hs.turn t)

/-- One unique guard is held if there is a writer, and none otherwise. -/
theorem Tallied.held_unique (hs : s.Tallied) : s.held .unique = s.lock.writer.toNat :=
  hs.writers

/-- **Readers and a writer are never there together.** -/
theorem Tallied.held_apart (hs : s.Tallied) :
    s.lock.readers = s.held .shared ∧ (s.lock.writer = true ↔ s.held .unique = 1) ∧
      s.held .unique ≤ 1 ∧ (s.held .unique = 0 ∨ s.held .shared = 0) := by
  rw [hs.held_unique]
  refine ⟨hs.readers, Bool.toNat_eq_one.symm, Bool.toNat_le s.lock.writer, ?_⟩
  cases hwriter : s.lock.writer with
  | false => exact Or.inl rfl
  | true => exact Or.inr (hs.readers.symm.trans (hs.apart hwriter))

/-! ## What an operation does -/

/-- What an operation comes to, alone and with the calls that it wakes.  A
release is made for a guard that was held already, or for one that has just
taken the lock. -/
inductive Effect (s : Session) (op : Op) : Prop where
  | nothing (answer : Answer) (hanswer : answer ≠ .blocks) (hreleased : s.released op = [])
      (hact : s.act op = (answer, s)) (hstep : s.step op = (answer, s))
  | blocks (mode : Mode) (hrefused : s.lock.admits mode = false) (hreleased : s.released op = [])
      (hact : s.act op = (.blocks, { s with blocked := s.blocked ++ [mode] }))
      (hstep : s.step op = (.blocks, { s with blocked := s.blocked ++ [mode] }))
  | takes (mode : Mode) (name : String) (taken : Lock) (htake : s.lock.take? mode = some taken)
      (hreleased : s.released op = [])
      (hact : s.act op =
        (.taken true, { s with lock := taken, guards := s.guards ++ [⟨name, mode⟩] }))
      (hstep : s.step op =
        (.taken true, { s with lock := taken, guards := s.guards ++ [⟨name, mode⟩] }))
  | releases (before : Lock) (g : Guard) (guards : List Guard) (answer : Answer)
      (hanswer : answer ≠ .blocks) (hreleased : s.released op = [(before, g.mode)])
      (hbefore : before = s.lock ∧ g ∈ s.guards ∨ ∃ mode name,
        s.lock.take? mode = some before ∧ g ∈ s.guards ++ [⟨name, mode⟩])
      (hact : s.act op = (answer, { s with lock := before.release g.mode, guards }))
      (hstep : s.step op = (answer, { s with lock := before, guards }.release g.mode))

theorem guard?_unblocked (s : Session) (name : String) :
    ({ s with blocked := [] } : Session).guard? name = s.guard? name := rfl

/-- A call that gets the lock keeps its guard, and an older one of the same
name gives way. -/
theorem effect_of_take (name : String) (htake : s.lock.take? mode = some taken)
    (hact : s.act op = s.act (.attempt mode name)) (hstep : s.step op = s.step (.attempt mode name))
    (hreleased : s.released op = s.released (.attempt mode name)) : Effect s op := by
  cases hfind : s.guard? name with
  | none =>
      refine Effect.takes mode name taken htake ?_ ?_ ?_
      · rw [hreleased]
        simp [released, htake, hfind]
      · rw [hact]
        simp [act, Session.step, keep, guard?_unblocked, htake, hfind]
      · rw [hstep]
        simp [Session.step, keep, htake, hfind]
  | some older =>
      refine Effect.releases taken older
        ((s.guards ++ [(⟨name, mode⟩ : Guard)]).eraseP (·.name = older.name)) (.taken true)
        (by decide) ?_ (Or.inr ⟨mode, name, htake, ?_⟩) ?_ ?_
      · rw [hreleased]
        simp [released, htake, hfind]
      · exact List.mem_append_left _ (List.mem_of_find?_eq_some hfind)
      · rw [hact]
        simp [act, Session.step, keep, drop, guard?_unblocked, htake, hfind, release_of_unblocked]
      · rw [hstep]
        simp [Session.step, keep, drop, htake, hfind]

/-- **Every operation does one of the four things.** -/
theorem effect (s : Session) (op : Op) : Effect s op := by
  cases op with
  | attempt mode name =>
      cases htake : s.lock.take? mode with
      | none =>
          refine Effect.nothing (.taken false) (by decide) ?_ ?_ ?_
          · simp [released, htake]
          · simp [act, Session.step, htake]
          · simp [Session.step, htake]
      | some taken => exact effect_of_take name htake rfl rfl rfl
  | await mode name =>
      cases htake : s.lock.take? mode with
      | none =>
          have hrefused : s.lock.admits mode = false := by simpa [take?] using htake
          refine Effect.blocks mode hrefused ?_ ?_ ?_
          · simp [released, htake]
          · simp [act, Session.step, htake]
          · simp [Session.step, htake]
      | some taken =>
          refine effect_of_take name htake ?_ ?_ rfl
          · simp [act, Session.step, htake]
          · simp [Session.step, htake]
  | drop name =>
      cases hfind : s.guard? name with
      | none =>
          refine Effect.nothing (.dropped false) (by decide) ?_ ?_ ?_
          · simp [released, hfind]
          · simp [act, Session.step, guard?_unblocked, hfind]
          · simp [Session.step, hfind]
      | some g =>
          have hg : g ∈ s.guards := List.mem_of_find?_eq_some hfind
          refine Effect.releases s.lock g (s.guards.eraseP (·.name = g.name)) (.dropped true)
            (by decide) ?_ (Or.inl ⟨rfl, hg⟩) ?_ ?_
          · simp [released, hfind]
          · simp [act, Session.step, drop, guard?_unblocked, hfind, release_of_unblocked]
          · simp [Session.step, drop, hfind]
  | unwind mode =>
      cases htake : s.lock.take? mode with
      | none =>
          refine Effect.nothing (.unwound false) (by decide) ?_ ?_ ?_
          · simp [released, htake]
          · simp [act, Session.step, htake]
          · simp [Session.step, htake]
      | some taken =>
          have hg : (⟨"", mode⟩ : Guard) ∈ s.guards ++ [⟨"", mode⟩] :=
            List.mem_append_right _ (List.mem_singleton.mpr rfl)
          refine Effect.releases taken ⟨"", mode⟩ s.guards (.unwound true) (by decide) ?_
            (Or.inr ⟨mode, "", htake, hg⟩) ?_ ?_
          · simp [released, htake]
          · simp [act, Session.step, htake, release_of_unblocked]
          · simp [Session.step, htake]

/-- An operation changes the lock by a release; or it makes none, and changes
it by taking it, or not at all. -/
theorem lock_act (s : Session) (op : Op) :
    (∀ before mode, (before, mode) ∈ s.released op → (s.act op).2.lock = before.release mode) ∧
      (s.released op = [] → (s.act op).2.lock = s.lock ∨
        ∃ mode, s.lock.take? mode = some (s.act op).2.lock) := by
  cases effect s op with
  | nothing answer hanswer hreleased hact hstep => simp [hreleased, hact]
  | blocks mode hrefused hreleased hact hstep => simp [hreleased, hact]
  | takes mode name taken htake hreleased hact hstep =>
      rw [hreleased, hact]
      exact ⟨fun _ _ hmem => absurd hmem List.not_mem_nil, fun _ => Or.inr ⟨mode, htake⟩⟩
  | releases before g guards answer hanswer hreleased hbefore hact hstep => simp [hreleased, hact]

/-- **Wherever a guard releases the lock, it is still counted.**  The lock is
the one from before the operation, or has just been taken. -/
theorem Tallied.released (hs : s.Tallied) {before : Lock}
    (hmem : (before, mode) ∈ s.released op) :
    (before = s.lock ∨ ∃ mode', s.lock.take? mode' = some before) ∧
      ∃ guards g, before.Tallies guards ∧ g ∈ guards ∧ g.mode = mode := by
  cases effect s op with
  | nothing answer hanswer hreleased hact hstep => simp [hreleased] at hmem
  | blocks mode hrefused hreleased hact hstep => simp [hreleased] at hmem
  | takes mode name taken htake hreleased hact hstep => simp [hreleased] at hmem
  | releases before' g guards answer hanswer hreleased hbefore hact hstep =>
      rw [hreleased, List.mem_singleton] at hmem
      cases hmem
      -- The guard is counted among those held before, or with the new one.
      rcases hbefore with ⟨rfl, hg⟩ | ⟨mode', name, htake, hg⟩
      · exact ⟨Or.inl rfl, s.guards, g, hs, hg, rfl⟩
      · obtain ⟨hadmits, rfl⟩ := take?_eq_some_iff.mp htake
        exact ⟨Or.inr ⟨mode', htake⟩, _, g, Tallies.take hs hadmits name, hg, rfl⟩

/-- An operation releases the lock only for a guard that is counted, and apart
from that it takes it at most. -/
theorem Tallied.changes (hs : s.Tallied) (op : Op) :
    (s.released op = [] → (s.act op).2.lock = s.lock ∨
        ∃ mode, s.lock.take? mode = some (s.act op).2.lock) ∧
      ∀ before mode, (before, mode) ∈ s.released op →
        (s.act op).2.lock = before.release mode ∧
          (mode = .shared → 0 < before.readers) ∧ (mode = .unique → before.writer = true) := by
  obtain ⟨hrelease, hother⟩ := lock_act s op
  refine ⟨hother, ?_⟩
  intro before mode hbefore
  obtain ⟨-, guards, g, hcounted, hg, rfl⟩ := hs.released hbefore
  exact ⟨hrelease before g.mode hbefore, hcounted.holder hg⟩

/-! ## Attempts -/

/-- An attempt succeeds exactly when the lock admits it. -/
theorem taken_iff {got : Bool} :
    (s.step (.attempt mode name)).1 = .taken got ↔ s.lock.admits mode = got := by
  cases hadmits : s.lock.admits mode <;> simp [Session.step, take?, hadmits]

/-- A panic under a guard tells whether the lock could be taken. -/
theorem unwound_iff {locked : Bool} :
    (s.step (.unwind mode)).1 = .unwound locked ↔ s.lock.admits mode = locked := by
  cases hadmits : s.lock.admits mode <;> simp [Session.step, take?, hadmits]

/-- **An attempt that fails changes nothing.** -/
theorem step_attempt_of_refused (hrefused : s.lock.admits mode = false) :
    (s.step (.attempt mode name)).2 = s := by
  simp [Session.step, take?, hrefused]

/-- Nothing changes where the lock is refused. -/
theorem step_unwind_of_refused (hrefused : s.lock.admits mode = false) :
    (s.step (.unwind mode)).2 = s := by
  simp [Session.step, take?, hrefused]

/-- An attempt that is admitted, under a new name, adds a holder and its guard. -/
theorem step_attempt_of_admits (hname : s.guard? name = none)
    (hadmits : s.lock.admits mode = true) : (s.step (.attempt mode name)).2 =
      { s with lock := s.lock.take mode, guards := s.guards ++ [⟨name, mode⟩] } := by
  simp [Session.step, take?, hadmits, keep, hname]

theorem step_drop_of_guard (hfind : s.guard? name = some g) :
    (s.step (.drop name)).2 = s.drop g := by
  simp [Session.step, hfind]

/-- A release right after the lock was taken wakes nobody who could not have
had the lock before. -/
theorem Settled.release_taken (hs : s.Settled) (hadmits : s.lock.admits mode = true) :
    { s with lock := s.lock.take mode }.release mode = s := by
  rw [release_eq]
  simp only [release_take hadmits, hs.wake, ite_self]

/-- **Taking the lock and dropping the guard leaves everything as it was**, if
nobody is blocked who could have the lock anyway. -/
theorem Settled.step_attempt_drop (hs : s.Settled) (hname : s.guard? name = none)
    (hadmits : s.lock.admits mode = true) :
    ((s.step (.attempt mode name)).2.step (.drop name)).2 = s := by
  have hothers : ∀ g ∈ s.guards, ¬ decide (g.name = name) = true := by
    simpa [guard?] using hname
  have hfound : (s.guards ++ [(⟨name, mode⟩ : Guard)]).find? (·.name = name) =
      some ⟨name, mode⟩ := by
    rw [List.find?_append, List.find?_eq_none.mpr hothers]
    simp
  have hleft : (s.guards ++ [(⟨name, mode⟩ : Guard)]).eraseP (·.name = name) = s.guards := by
    rw [List.eraseP_append_right _ hothers]
    simp
  have hdrop := step_drop_of_guard
    (s := { s with lock := s.lock.take mode, guards := s.guards ++ [⟨name, mode⟩] }) hfound
  rw [step_attempt_of_admits hname hadmits, hdrop, Session.drop, hleft]
  exact hs.release_taken hadmits

/-- **Taking the lock and unwinding leaves everything as it was**, if nobody is
blocked who could have the lock anyway. -/
theorem Settled.step_unwind (hs : s.Settled) (mode : Mode) : (s.step (.unwind mode)).2 = s := by
  cases hadmits : s.lock.admits mode with
  | false => exact step_unwind_of_refused hadmits
  | true =>
      simp only [Session.step, take?, hadmits, if_true]
      exact hs.release_taken hadmits

/-- The same with everybody who is blocked left aside. -/
theorem act_attempt_drop (hname : s.guard? name = none) (hadmits : s.lock.admits mode = true) :
    ((s.act (.attempt mode name)).2.act (.drop name)).2 = s := by
  have hname' : ({ s with blocked := [] } : Session).guard? name = none := hname
  have htaken := step_attempt_of_admits hname' hadmits
  have hback := (settled_of_unblocked rfl).step_attempt_drop hname' hadmits
  rw [htaken] at hback
  simp only [act, htaken, hback, List.append_nil]

/-- A panic under a guard leaves the session as it was. -/
theorem act_unwind (s : Session) (mode : Mode) : (s.act (.unwind mode)).2 = s := by
  have hsettled : Settled { s with blocked := [] } := settled_of_unblocked rfl
  have hback := hsettled.step_unwind mode
  simp only [act, hback, List.append_nil]

/-- **A lock counts exactly its holders.**  Whatever has been done, with the
blocked calls trying again whenever they like and in any order:

* the readers are the shared guards, there is a writer exactly when a unique
  guard is held, there is never a second one, and never one of each kind;
* every change to the lock is one that takes it or a release, and a release
  finds its reader or its writer counted;
* an attempt to share the lock succeeds exactly when no unique guard is held,
  one to have it alone exactly when no guard is, also by a scope that unwinds;
* an attempt that fails changes nothing;
* an attempt that succeeds and is taken back, by dropping the guard or by
  unwinding, changes nothing in the end: not for those who are blocked, and if
  none of them could have the lock anyway, nobody is woken by it. -/
theorem holders_counted (turns : List Turn) :
    let s := initial.through turns
    (s.lock.readers = s.held .shared ∧ (s.lock.writer = true ↔ s.held .unique = 1) ∧
        s.held .unique ≤ 1 ∧ (s.held .unique = 0 ∨ s.held .shared = 0)) ∧
      (∀ op,
        (s.released op = [] → (s.act op).2.lock = s.lock ∨
          ∃ mode, s.lock.take? mode = some (s.act op).2.lock) ∧
        ∀ before mode, (before, mode) ∈ s.released op →
          (s.act op).2.lock = before.release mode ∧
            (mode = .shared → 0 < before.readers) ∧ (mode = .unique → before.writer = true)) ∧
      ((∀ name, (s.step (.attempt .shared name)).1 = .taken true ↔ s.held .unique = 0) ∧
        (∀ name, (s.step (.attempt .unique name)).1 = .taken true ↔ s.guards = []) ∧
        ((s.step (.unwind .shared)).1 = .unwound true ↔ s.held .unique = 0) ∧
        ((s.step (.unwind .unique)).1 = .unwound true ↔ s.guards = [])) ∧
      ((∀ mode name, (s.step (.attempt mode name)).1 = .taken false →
          (s.step (.attempt mode name)).2 = s) ∧
        ∀ mode, (s.step (.unwind mode)).1 = .unwound false → (s.step (.unwind mode)).2 = s) ∧
      (∀ mode name, s.guard? name = none → (s.step (.attempt mode name)).1 = .taken true →
        ((s.act (.attempt mode name)).2.act (.drop name)).2 = s ∧
          (s.Settled → ((s.step (.attempt mode name)).2.step (.drop name)).2 = s)) ∧
      ∀ mode, (s.act (.unwind mode)).2 = s ∧ (s.Settled → (s.step (.unwind mode)).2 = s) := by
  intro s
  have hs : s.Tallied := tallied_initial.through turns
  have hshared := Tallies.admits_shared_iff hs
  have hunique := Tallies.admits_unique_iff hs
  refine ⟨hs.held_apart, hs.changes, ⟨?_, ?_, ?_, ?_⟩, ⟨?_, ?_⟩, ?_, ?_⟩
  · intro name
    exact taken_iff.trans hshared
  · intro name
    exact taken_iff.trans hunique
  · exact unwound_iff.trans hshared
  · exact unwound_iff.trans hunique
  · intro mode name hfailed
    exact step_attempt_of_refused (taken_iff.mp hfailed)
  · intro mode hfailed
    exact step_unwind_of_refused (unwound_iff.mp hfailed)
  · intro mode name hname htaken
    have hadmits := taken_iff.mp htaken
    refine ⟨act_attempt_drop hname hadmits, ?_⟩
    intro hsettled
    exact hsettled.step_attempt_drop hname hadmits
  · intro mode
    exact ⟨act_unwind s mode, fun hsettled => hsettled.step_unwind mode⟩

end Session
end Lock
end HttpWire
