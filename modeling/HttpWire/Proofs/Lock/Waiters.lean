import HttpWire.Proofs.Lock.Waking
import Mathlib.Data.List.Perm.Basic

/-!
# Waiting writers are not seen

A writer that waits is not let in while anybody holds the lock, and it keeps
nobody out.  So until the lock is held by nobody, whether it waits or not is
the same to everyone else: two runs, one with a blocked writer more than the
other, give the same answers and hold the same guards.  It makes no difference
either when those who are blocked try again, in one run or in the other.

Two sessions are compared by what is left of them without those who are
blocked (`unblocked`).  An operation alone sees no more of a session than that
(`Beside.act`), and while the lock is held to try again is to be refused
(`Settled.again`), so a run comes to its operations alone
(`Beside.through_alone`).  The main statement is `waiting_writer_unseen`.
-/

namespace HttpWire.Lock

/-- The operation that a turn does, if it does one. -/
def Turn.op? : Turn → Option Op
  | .whole op | .alone op => some op
  | .again _ => none

namespace Session

variable {s t : Session} {op : Op} {ops : List Op} {extra : List Mode}

/-- What a turn answers, if it does an operation. -/
def answer? (s : Session) : Turn → Option Answer
  | .whole op => some (s.step op).1
  | .alone op => some (s.act op).1
  | .again _ => none

/-- The answers that turns give, one after the other. -/
def answers (s : Session) : List Turn → List Answer
  | [] => []
  | t :: later => (s.answer? t).toList ++ (s.turn t).answers later

/-- Some guard is held before operations, behind them and at every moment
between, also where one of them has been done and nobody has been woken yet. -/
def HeldThrough (s : Session) : List Op → Prop
  | [] => s.guards ≠ []
  | op :: later => s.guards ≠ [] ∧ (s.act op).2.HeldThrough later

instance decidableHeldThrough : (s : Session) → (ops : List Op) → Decidable (s.HeldThrough ops)
  | s, [] => inferInstanceAs (Decidable (s.guards ≠ []))
  | s, op :: later =>
    have : Decidable ((s.act op).2.HeldThrough later) := decidableHeldThrough _ later
    inferInstanceAs (Decidable (s.guards ≠ [] ∧ (s.act op).2.HeldThrough later))

/-- The session without those who are blocked. -/
def unblocked (s : Session) : Session :=
  { s with blocked := [] }

/-- One session is like another, but for calls that are blocked in addition. -/
structure Beside (extra : List Mode) (s t : Session) : Prop where
  alike : t.unblocked = s.unblocked
  blocked : t.blocked.Perm (extra ++ s.blocked)

/-! ## What can be seen -/

theorem HeldThrough.guards (hheld : s.HeldThrough ops) : s.guards ≠ [] := by
  cases ops with
  | nil => exact hheld
  | cons op later => exact hheld.1

theorem Beside.guards (h : Beside extra s t) : t.guards = s.guards := by
  have hguards : t.unblocked.guards = s.unblocked.guards := by rw [h.alike]
  exact hguards

theorem Beside.lock (h : Beside extra s t) : t.lock = s.lock := by
  have hlock : t.unblocked.lock = s.unblocked.lock := by rw [h.alike]
  exact hlock

theorem act_fst (s : Session) (op : Op) : (s.act op).1 = (s.unblocked.step op).1 := rfl

theorem act_snd (s : Session) (op : Op) : (s.act op).2 =
    { (s.unblocked.step op).2 with blocked := s.blocked ++ (s.unblocked.step op).2.blocked } := rfl

/-- An operation answers the same with all whom it wakes. -/
theorem step_fst (s : Session) (op : Op) : (s.step op).1 = (s.act op).1 := by
  cases effect s op with
  | nothing answer hanswer hreleased hact hstep => rw [hact, hstep]
  | blocks mode hrefused hreleased hact hstep => rw [hact, hstep]
  | takes mode name taken htake hreleased hact hstep => rw [hact, hstep]
  | releases before g guards answer hanswer hreleased hbefore hact hstep => rw [hact, hstep]

/-- **An operation alone does not see who is blocked.** -/
theorem Beside.act (h : Beside extra s t) (op : Op) :
    (t.act op).1 = (s.act op).1 ∧ Beside extra (s.act op).2 (t.act op).2 := by
  refine ⟨?_, ?_, ?_⟩
  · rw [act_fst, act_fst, h.alike]
  · rw [act_snd, act_snd, h.alike]
    rfl
  · rw [act_snd, act_snd, h.alike, ← List.append_assoc]
    exact h.blocked.append_right _

/-- An operation answers the same in both sessions. -/
theorem Beside.step_fst (h : Beside extra s t) (op : Op) : (t.step op).1 = (s.step op).1 := by
  rw [Session.step_fst, Session.step_fst]
  exact (h.act op).1

/-! ## While the lock is held -/

/-- **Who tries again is refused**, if nobody is blocked who could have the
lock: it stays blocked, behind the others. -/
theorem Settled.again (hs : s.Settled) (place : Nat) : Beside [] s (s.turn (.again place)) := by
  cases hplace : s.blocked[place]? with
  | none =>
      have hnobody : s.turn (.again place) = s := by simp only [turn, hplace]
      rw [hnobody]
      exact ⟨rfl, List.Perm.refl _⟩
  | some mode =>
      obtain ⟨hlt, hmode⟩ := List.getElem?_eq_some_iff.mp hplace
      have hrefused : s.lock.admits mode = false := hs mode (List.mem_of_getElem? hplace)
      have hback : s.turn (.again place) =
          { s with blocked := s.blocked.eraseIdx place ++ [mode] } := by
        simp [turn, hplace, Session.retryOne, take?, hrefused]
      rw [hback]
      refine ⟨rfl, ?_⟩
      rw [← hmode]
      exact List.perm_append_comm.trans (List.getElem_cons_eraseIdx_perm hlt)

/-- Calls in addition that are refused leave nobody blocked who could have the
lock. -/
theorem Settled.beside (hs : s.Settled) (h : Beside extra s t)
    (hextra : ∀ mode ∈ extra, s.lock.admits mode = false) : t.Settled := by
  intro mode hmode
  rw [h.lock]
  rcases List.mem_append.mp (h.blocked.mem_iff.mp hmode) with hmore | hbefore
  · exact hextra mode hmore
  · exact hs mode hbefore

/-- A session that is like another one altogether may take its place. -/
theorem Beside.trans {r : Session} (h : Beside extra s t) (h' : Beside [] t r) : Beside extra s r :=
  ⟨h'.alike.trans h.alike, h'.blocked.trans h.blocked⟩

/-- An operation that leaves a guard wakes nobody. -/
theorem Tallied.step_of_held (ht : t.Tallied) (hheld : (t.act op).2.guards ≠ []) :
    t.frees op = false ∧ (t.step op).2 = (t.act op).2 := by
  have hquiet : t.frees op = false := by
    cases hfrees : t.frees op with
    | false => rfl
    | true => exact absurd (ht.act_of_frees hfrees).2.2.1 hheld
  refine ⟨hquiet, ?_⟩
  rw [ht.step_eq op, hquiet]
  rfl

/-- **While the lock is held a run comes to its operations alone**, whoever is
blocked in addition, and whenever those who are blocked try again.  The
induction is on the turns; of two turns that stand side by side in it, one may
be an operation and the other a call that tries again. -/
theorem Beside.through_alone {turns : List Turn} (h : Beside extra s t) (ht : t.Tallied)
    (hsettled : t.Settled) (hheld : s.HeldThrough ops) (hops : turns.filterMap Turn.op? = ops) :
    t.answers turns = s.answers (ops.map .alone) ∧
      Beside extra (s.through (ops.map .alone)) (t.through turns) := by
  induction turns generalizing s t ops with
  | nil =>
      subst hops
      exact ⟨rfl, h⟩
  | cons turn later ih =>
      have hthrough : t.through (turn :: later) = (t.turn turn).through later := rfl
      -- An operation is the same step in both runs.
      have hoperation : ∀ op, turn.op? = some op → t.answer? turn = some (t.act op).1 →
          ((t.act op).2.guards ≠ [] → t.turn turn = (t.act op).2) →
            t.answers (turn :: later) = s.answers (ops.map .alone) ∧
              Beside extra (s.through (ops.map .alone)) (t.through (turn :: later)) := by
        intro op hop hanswer hturn
        rw [List.filterMap_cons_some hop] at hops
        subst hops
        obtain ⟨hsame, hbeside⟩ := h.act op
        have hguards : (t.act op).2.guards ≠ [] := by
          rw [hbeside.guards]
          exact hheld.2.guards
        have hleft : (t.act op).2.Settled := hsettled.act ht (ht.step_of_held hguards).1
        obtain ⟨hanswers, hrun⟩ := ih hbeside (ht.act op) hleft hheld.2 rfl
        rw [answers, hanswer, hthrough, hturn hguards, hanswers, hsame]
        exact ⟨rfl, hrun⟩
      cases turn with
      | whole op =>
          refine hoperation op rfl ?_ fun hguards => (ht.step_of_held hguards).2
          rw [answer?, Session.step_fst]
      | alone op => exact hoperation op rfl rfl fun _ => rfl
      | again place =>
          have hagain := hsettled.again place
          have hleft : (t.turn (.again place)).Settled := hsettled.beside hagain nofun
          exact ih (h.trans hagain) (ht.turn _) hleft hheld hops

/-- **Two runs of the same operations are alike while the lock is held**, but
for those who are blocked in addition, whenever the blocked calls try again in
either of them. -/
theorem Beside.through {here there : List Turn} (h : Beside extra s t) (hs : s.Tallied)
    (hsettled : s.Settled) (ht : t.Tallied) (hsettled' : t.Settled) (hheld : s.HeldThrough ops)
    (hhere : here.filterMap Turn.op? = ops) (hthere : there.filterMap Turn.op? = ops) :
    t.answers there = s.answers here ∧ Beside extra (s.through here) (t.through there) := by
  have hself : Beside [] s s := ⟨rfl, List.Perm.refl _⟩
  obtain ⟨hanswers, hrun⟩ := hself.through_alone hs hsettled hheld hhere
  obtain ⟨hanswers', hrun'⟩ := h.through_alone ht hsettled' hheld hthere
  refine ⟨hanswers'.trans hanswers.symm, hrun'.alike.trans hrun.alike.symm, ?_⟩
  exact hrun'.blocked.trans (List.Perm.append_left extra hrun.blocked.symm)

theorem filterMap_whole (ops : List Op) : (ops.map Turn.whole).filterMap Turn.op? = ops := by
  rw [List.filterMap_map]
  exact List.filterMap_some

/-- Operations with all whom they wake give the answers of a run. -/
theorem answers_whole (s : Session) (ops : List Op) :
    s.answers (ops.map .whole) = (s.run ops).map (·.1) := by
  induction ops generalizing s with
  | nil => rfl
  | cons op later ih =>
      rw [List.map_cons, answers, ih]
      rfl

/-! ## One writer more -/

/-- A call that is blocked is refused, and changes nothing else. -/
theorem beside_of_blocks {mode : Mode} {name : String}
    (hblocks : (s.step (.await mode name)).1 = .blocks) :
    s.lock.admits mode = false ∧ Beside [mode] s (s.step (.await mode name)).2 := by
  cases hadmits : s.lock.admits mode with
  | true => simp [Session.step, take?, hadmits] at hblocks
  | false =>
      have hstep : (s.step (.await mode name)).2 = { s with blocked := s.blocked ++ [mode] } := by
        simp [Session.step, take?, hadmits]
      rw [hstep]
      exact ⟨rfl, rfl, List.perm_append_comm⟩

/-- A call that waits takes the lock at once if it is admitted. -/
theorem await_of_admits {mode : Mode} (hadmits : s.lock.admits mode = true) (name : String) :
    (s.step (.await mode name)).1 = .taken true := by
  simp [Session.step, take?, hadmits]

/-- Where writers are refused, and readers are blocked only by a unique guard,
nobody is blocked who could have the lock. -/
theorem Tallied.settled_of_refused (hs : s.Tallied) (hunique : s.lock.admits .unique = false)
    (hreaders : .shared ∈ s.blocked → s.held .unique = 1) : s.Settled := by
  intro mode hmode
  cases mode with
  | unique => exact hunique
  | shared =>
      have hwriter : s.lock.writer = true := hs.held_apart.2.1.mpr (hreaders hmode)
      simp [admits, hwriter]

/-- **A waiting writer is not seen while the lock is held.**  Whatever has been
done before, let a writer come and be blocked, and let no reader be blocked at
that time who could have the lock.  Let operations follow through which some
guard is always held, if they come alone.  Then the session to which the writer
came and the one to which it did not stay together:

* the operations answer the same in both, one after the other with all whom
  they wake, and also when those who are blocked try again in between, in
  either session whenever they like;
* the same guards are held in both, and the lock is the same;
* any operation that comes next answers the same in both, be it an attempt or
  the one that frees the lock, and leaves the same guards before anybody is
  woken;
* the same calls are blocked in both, but for the writer.

And a reader gets the lock whenever no unique guard is held, whoever waits. -/
theorem waiting_writer_unseen (before : List Turn) (name : String) :
    let s := initial.through before
    let t := (s.step (.await .unique name)).2
    ((s.step (.await .unique name)).1 = .blocks → (.shared ∈ s.blocked → s.held .unique = 1) →
      ∀ ops, s.HeldThrough ops → (t.run ops).map (·.1) = (s.run ops).map (·.1) ∧
        ∀ here there : List Turn,
          here.filterMap Turn.op? = ops → there.filterMap Turn.op? = ops →
            t.answers there = s.answers here ∧
            ((t.through there).guards = (s.through here).guards ∧
              (t.through there).lock = (s.through here).lock) ∧
            (∀ op, ((t.through there).step op).1 = ((s.through here).step op).1 ∧
              ((t.through there).act op).2.guards = ((s.through here).act op).2.guards) ∧
            (t.through there).blocked.Perm (.unique :: (s.through here).blocked)) ∧
      (s.held .unique = 0 → ∀ name, (s.step (.attempt .shared name)).1 = .taken true ∧
        (s.step (.await .shared name)).1 = .taken true) := by
  intro s t
  have hs : s.Tallied := tallied_initial.through before
  refine ⟨?_, ?_⟩
  · intro hblocks hreaders ops hheld
    obtain ⟨hrefused, hbeside⟩ := beside_of_blocks hblocks
    have hsettled : s.Settled := hs.settled_of_refused hrefused hreaders
    have hsettled' : t.Settled :=
      hsettled.beside hbeside fun mode hmode => List.mem_singleton.mp hmode ▸ hrefused
    have hruns : ∀ here there : List Turn, here.filterMap Turn.op? = ops →
        there.filterMap Turn.op? = ops →
          t.answers there = s.answers here ∧ Beside [.unique] (s.through here) (t.through there) :=
      fun here there => hbeside.through hs hsettled (hs.step _) hsettled' hheld
    refine ⟨?_, ?_⟩
    · rw [← answers_whole, ← answers_whole]
      exact (hruns _ _ (filterMap_whole ops) (filterMap_whole ops)).1
    · intro here there hhere hthere
      obtain ⟨hanswers, hrun⟩ := hruns here there hhere hthere
      refine ⟨hanswers, ⟨hrun.guards, hrun.lock⟩, ?_, hrun.blocked⟩
      intro op
      exact ⟨hrun.step_fst op, (hrun.act op).2.guards⟩
  · intro hnone name
    have hadmits : s.lock.admits .shared = true := (Tallies.admits_shared_iff hs).mpr hnone
    exact ⟨taken_iff.mpr hadmits, await_of_admits hadmits name⟩

/-- A second reader comes and the first one goes, while a writer waits and
tries again twice. -/
theorem waiting_writer_unseen_readers_change :
    let before : List Turn := [.whole (.attempt .shared "a")]
    let ops : List Op := [.await .shared "b", .drop "a"]
    let there : List Turn :=
      [.again 0, .whole (.await .shared "b"), .again 0, .alone (.drop "a")]
    let s := initial.through before
    let t := (s.step (.await .unique "c")).2
    ((s.step (.await .unique "c")).1 = .blocks ∧ (.shared ∈ s.blocked → s.held .unique = 1) ∧
        s.HeldThrough ops ∧ (ops.map Turn.whole).filterMap Turn.op? = ops ∧
        there.filterMap Turn.op? = ops ∧ s.held .unique = 0) ∧
      t.answers there = [.taken true, .dropped true] ∧
      (t.through there).guards = [⟨"b", .shared⟩] ∧
      (s.step (.attempt .shared "d")).1 = .taken true := by
  intro before ops there s t
  have hblocks : (s.step (.await .unique "c")).1 = .blocks := by decide
  have hreaders : .shared ∈ s.blocked → s.held .unique = 1 := by decide
  have hheld : s.HeldThrough ops := by decide
  have hhere : (ops.map Turn.whole).filterMap Turn.op? = ops := rfl
  have hthere : there.filterMap Turn.op? = ops := rfl
  have hnone : s.held .unique = 0 := by decide
  obtain ⟨hunseen, hshared⟩ := waiting_writer_unseen before "c"
  obtain ⟨hanswers, ⟨hguards, -⟩, -, -⟩ :=
    (hunseen hblocks hreaders ops hheld).2 (ops.map .whole) there hhere hthere
  refine ⟨⟨hblocks, hreaders, hheld, hhere, hthere, hnone⟩, ?_, ?_, ?_⟩
  · rw [hanswers]
    decide
  · rw [hguards]
    decide
  · exact (hshared hnone "d").1

/-- When the last reader goes the two sessions part: the writer gets the lock. -/
example :
    let s := initial.through [.whole (.attempt .shared "a")]
    let t := (s.step (.await .unique "c")).2
    (s.step (.drop "a")).2.guards = [] ∧
      (t.step (.drop "a")).2.guards = [⟨"w1", .unique⟩] := by decide

end Session
end HttpWire.Lock
