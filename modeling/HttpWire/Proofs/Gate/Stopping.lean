import HttpWire.Proofs.Gate.Counting

/-!
# Stopping a gate

A call to stop a gate completes when nobody is inside, at once or later, and
from then on the gate is stopped.  Waiting calls try again after every
operation, so none of them can wait without a guard that is held.

What trying again comes to depends on the guards alone (`step_cases`): while
one is held nothing happens; when none is, all waiting calls complete, and the
first of them stops the gate.  From this follow the fate of each call, which
completes once or still waits (`finished_run`), and the end: a stopped gate
has no guards and gets none (`stopped_after`).

The main statement is `stop_is_barrier`.
-/

namespace HttpWire.Gate.Session

/-- The session after operations, one after the other. -/
def after (s : Session) (ops : List Op) : Session :=
  ops.foldl (fun s op => (s.step op).session) s

/-- The calls to stop that complete in a step: the one that is made in it, if
it completes at once, and those that had been waiting. -/
def Step.finished (done : Step) : List Nat :=
  (if done.answer = .stopped true then [done.session.calls - 1] else []) ++ done.completed

variable {s : Session} {op : Op}

theorem answer_step (s : Session) (op : Op) : (s.step op).answer = (s.act op).1 := rfl

theorem Counted.after (hs : s.Counted) (ops : List Op) : (s.after ops).Counted := by
  induction ops generalizing s with
  | nil => exact hs
  | cons op later ih => exact ih (hs.step op)

/-! ## Trying again -/

/-- While a scope is inside, calls that try again wait on. -/
theorem retry_of_refused (hstop : s.gate.stop? = none) (calls : List Nat) :
    s.retry calls = ([], { s with waiting := s.waiting ++ calls }) := by
  induction calls generalizing s with
  | nil => simp [retry]
  | cons call later ih =>
      have hone : s.retryOne call = ([], { s with waiting := s.waiting ++ [call] }) := by
        simp [retryOne, hstop]
      have hlater := ih (s := { s with waiting := s.waiting ++ [call] }) hstop
      simp only [retry, hone, hlater]
      simp

/-- At a stopped gate all calls that try again complete. -/
theorem retry_of_stopped (hgate : s.gate = stoppedGate) (calls : List Nat) :
    s.retry calls = (calls, s) := by
  induction calls with
  | nil => rfl
  | cons call later ih =>
      have hone : s.retryOne call = ([call], s) := by
        have hstop : s.gate.stop? = some stoppedGate := by
          rw [hgate]
          rfl
        simp only [retryOne, hstop]
        rw [← hgate]
      simp only [retry, hone, ih]
      rfl

/-- The first call to stop that finds no scope inside stops the gate, and all
others complete with it. -/
theorem retry_of_granted (hstop : s.gate.stop? = some stoppedGate) {calls : List Nat}
    (hcalls : calls ≠ []) : s.retry calls = (calls, { s with gate := stoppedGate }) := by
  cases calls with
  | nil => exact absurd rfl hcalls
  | cons call later =>
      have hone : s.retryOne call = ([call], { s with gate := stoppedGate }) := by
        simp [retryOne, hstop]
      simp only [retry, hone]
      rw [retry_of_stopped rfl]
      rfl

/-- **Waiting calls complete together or not at all**: all of them once no guard
is held, and none before. -/
theorem Counted.settle_cases (hs : s.Counted) :
    ((s.waiting ≠ [] → s.guards ≠ []) ∧ s.settle = ([], s)) ∨
      (s.guards = [] ∧ s.waiting ≠ [] ∧
        s.settle = (s.waiting, { s with gate := stoppedGate, waiting := [] })) := by
  have hstop := Carries.stop?_eq hs
  by_cases hwaiting : s.waiting = []
  · refine Or.inl ⟨fun hne => absurd hwaiting hne, ?_⟩
    unfold Session.settle
    rw [hwaiting]
    exact congrArg (fun calls => ([], { s with waiting := calls })) hwaiting.symm
  · by_cases hguards : s.guards = []
    · refine Or.inr ⟨hguards, hwaiting, ?_⟩
      rw [if_pos (List.length_eq_zero_iff.mpr hguards)] at hstop
      exact retry_of_granted (s := { s with waiting := [] }) hstop hwaiting
    · refine Or.inl ⟨fun _ => hguards, ?_⟩
      rw [if_neg (mt List.length_eq_zero_iff.mp hguards)] at hstop
      exact retry_of_refused (s := { s with waiting := [] }) hstop s.waiting

/-- **What a step comes to.**  It is its operation alone, while a guard is held
or no call waits; otherwise all waiting calls complete, and the gate is
stopped. -/
theorem Counted.step_cases (hs : s.Counted) (op : Op) :
    (((s.act op).2.waiting ≠ [] → (s.act op).2.guards ≠ []) ∧
        s.step op = ⟨(s.act op).1, [], (s.act op).2⟩) ∨
      ((s.act op).2.guards = [] ∧ (s.act op).2.waiting ≠ [] ∧
        s.step op = ⟨(s.act op).1, (s.act op).2.waiting,
          { (s.act op).2 with gate := stoppedGate, waiting := [] }⟩) := by
  have hstep : s.step op = ⟨(s.act op).1, (s.act op).2.settle.1, (s.act op).2.settle.2⟩ := rfl
  rcases (hs.act op).settle_cases with ⟨hwaits, hsettle⟩ | ⟨hguards, hwaiting, hsettle⟩
  · rw [hsettle] at hstep
    exact Or.inl ⟨hwaits, hstep⟩
  · rw [hsettle] at hstep
    exact Or.inr ⟨hguards, hwaiting, hstep⟩

/-- **No call waits without a guard that is held**, after a run as before. -/
theorem Counted.guards_of_waiting (hs : s.Counted) (hwaits : s.waiting ≠ [] → s.guards ≠ [])
    (ops : List Op) : (s.after ops).waiting ≠ [] → (s.after ops).guards ≠ [] := by
  induction ops generalizing s with
  | nil => exact hwaits
  | cons op later ih =>
      apply ih (hs.step op)
      rcases hs.step_cases op with ⟨hwaits, hstep⟩ | ⟨-, -, hstep⟩
      · rw [hstep]
        exact hwaits
      · rw [hstep]
        exact fun hne => absurd rfl hne

/-! ## Calls -/

/-- Only a call to stop adds to the calls, and only it answers like one. -/
theorem act_of_ne_stop (s : Session) (hop : op ≠ .stop) :
    (s.act op).2.waiting = s.waiting ∧ (s.act op).2.calls = s.calls ∧
      ∀ atOnce, (s.act op).1 ≠ .stopped atOnce := by
  cases effect s op with
  | nothing answer hop' hanswer hleft hact =>
      rw [hact]
      exact ⟨rfl, rfl, hanswer⟩
  | enters entered g hop' henter hleft hact =>
      rw [hact]
      exact ⟨rfl, rfl, by simp⟩
  | leaves before guards answer hop' hanswer hleft hbefore hact =>
      rw [hact]
      exact ⟨rfl, rfl, hanswer⟩
  | stops stopped hstop hstop' hact => exact absurd hstop hop
  | waits hstop hstop' hact => exact absurd hstop hop

/-- A call to stop completes at once where no guard is held, and waits where
one is. -/
theorem Counted.act_stop (hs : s.Counted) :
    s.act .stop =
      if s.guards = [] then
        (.stopped true, { s with gate := stoppedGate, calls := s.calls + 1 })
      else
        (.stopped false, { s with waiting := s.waiting ++ [s.calls], calls := s.calls + 1 }) := by
  have hstop := Carries.stop?_eq hs
  by_cases hguards : s.guards = []
  · rw [if_pos (List.length_eq_zero_iff.mpr hguards)] at hstop
    simp [Session.act, hstop, hguards]
  · rw [if_neg (mt List.length_eq_zero_iff.mp hguards)] at hstop
    simp [Session.act, hstop, hguards]

/-- **No call is lost or completed twice in a step.** -/
theorem Counted.finished_step (hs : s.Counted) (op : Op) :
    (s.step op).session.calls = s.calls + [op].count .stop ∧
      ((s.step op).finished ++ (s.step op).session.waiting).Perm
        (s.waiting ++ if op = .stop then [s.calls] else []) := by
  by_cases hop : op = .stop
  · subst hop
    have hact := hs.act_stop
    by_cases hguards : s.guards = []
    · rw [if_pos hguards] at hact
      have hswap := (List.perm_append_singleton s.calls s.waiting).symm
      rcases hs.step_cases .stop with ⟨-, hstep⟩ | ⟨-, -, hstep⟩
      · rw [hstep, hact]
        exact ⟨by simp, by simpa [Step.finished] using hswap⟩
      · rw [hstep, hact]
        exact ⟨by simp, by simpa [Step.finished] using hswap⟩
    · rw [if_neg hguards] at hact
      rcases hs.step_cases .stop with ⟨-, hstep⟩ | ⟨hnone, -, -⟩
      · rw [hstep, hact]
        exact ⟨by simp, by simp [Step.finished]⟩
      · rw [hact] at hnone
        exact absurd hnone hguards
  · obtain ⟨hwaiting, hcalls, hanswer⟩ := act_of_ne_stop s hop
    rcases hs.step_cases op with ⟨-, hstep⟩ | ⟨-, -, hstep⟩
    · rw [hstep]
      exact ⟨by simp [hcalls, hop], by simp [Step.finished, hanswer, hwaiting, hop]⟩
    · rw [hstep]
      exact ⟨by simp [hcalls, hop], by simp [Step.finished, hanswer, hwaiting, hop]⟩

/-- **No call is lost or completed twice in a run.**  The induction is on the
operations; `done` holds the calls that have completed before. -/
theorem Counted.finished_run (hs : s.Counted) (ops : List Op) {done : List Nat}
    (hdone : (done ++ s.waiting).Perm (List.range s.calls)) :
    (s.after ops).calls = s.calls + ops.count .stop ∧
      (done ++ (s.run ops).flatMap Step.finished ++ (s.after ops).waiting).Perm
        (List.range (s.after ops).calls) := by
  induction ops generalizing s done with
  | nil => simpa [Session.run, Session.after] using hdone
  | cons op later ih =>
      obtain ⟨hcalls, hperm⟩ := hs.finished_step op
      -- What has completed by now and what waits are again all the calls so far.
      have hnext : (done ++ (s.step op).finished ++ (s.step op).session.waiting).Perm
          (List.range (s.step op).session.calls) := by
        rw [List.append_assoc, hcalls]
        refine (hperm.append_left done).trans ?_
        rw [← List.append_assoc]
        refine (hdone.append_right _).trans (List.Perm.of_eq ?_)
        by_cases hop : op = .stop
        · simp [hop, List.range_succ]
        · simp [hop]
      obtain ⟨hcount, hrest⟩ := ih (hs.step op) hnext
      refine ⟨?_, ?_⟩
      · calc ((s.step op).session.after later).calls
            = s.calls + [op].count .stop + later.count .stop := by rw [hcount, hcalls]
          _ = s.calls + (op :: later).count .stop := by
              rw [Nat.add_assoc, ← List.count_append]
              rfl
      · simpa [Session.run, Session.after] using hrest

/-! ## The end -/

/-- At a stopped gate no guard is held. -/
theorem Counted.guards_of_stopped (hs : s.Counted) (hgate : s.gate = stoppedGate) :
    s.guards = [] := by
  unfold Counted at hs
  rw [hgate] at hs
  rcases hs with ⟨-, hnone⟩ | ⟨k, hstate, -⟩
  · exact List.length_eq_zero_iff.mp hnone
  · cases hstate

/-- A step from a stopped gate leaves it stopped. -/
theorem Counted.stopped_step (hs : s.Counted) (hgate : s.gate = stoppedGate) (op : Op) :
    (s.step op).session.gate = stoppedGate := by
  have hnone : s.gate.enter? = none := by
    rw [hgate]
    rfl
  have hguards : s.guards = [] := hs.guards_of_stopped hgate
  have hact : (s.act op).2.gate = stoppedGate := by
    have hleft : s.left op = [] := by
      cases op <;> simp [Session.left, hnone, holds, hguards]
    rcases (gate_act s op).2 hleft with hsame | henter | hstop
    · rw [hsame, hgate]
    · rw [hnone] at henter
      cases henter
    · rw [hgate] at hstop
      exact (Option.some.inj hstop).symm
  rcases hs.step_cases op with ⟨-, hstep⟩ | ⟨-, -, hstep⟩
  · rw [hstep]
    exact hact
  · rw [hstep]

/-- **A stopped gate stays stopped.** -/
theorem Counted.stopped_after (hs : s.Counted) (hgate : s.gate = stoppedGate) (ops : List Op) :
    (s.after ops).gate = stoppedGate := by
  induction ops generalizing s with
  | nil => exact hgate
  | cons op later ih => exact ih (hs.step op) (hs.stopped_step hgate op)

/-- **A call completes only where nobody is inside**, and the gate is stopped
then. -/
theorem Counted.stopped_of_finished (hs : s.Counted) (op : Op)
    (hfinished : (s.step op).finished ≠ []) :
    (s.act op).2.guards = [] ∧ (s.step op).session.gate = stoppedGate := by
  rcases hs.step_cases op with ⟨-, hstep⟩ | ⟨hguards, -, hstep⟩
  · rw [hstep] at hfinished ⊢
    by_cases hop : op = .stop
    · subst hop
      have hact := hs.act_stop
      by_cases hguards : s.guards = []
      · rw [if_pos hguards] at hact
        rw [hact]
        exact ⟨hguards, rfl⟩
      · rw [if_neg hguards] at hact
        simp [Step.finished, hact] at hfinished
    · obtain ⟨-, -, hanswer⟩ := act_of_ne_stop s hop
      simp [Step.finished, hanswer] at hfinished
  · rw [hstep]
    exact ⟨hguards, rfl⟩

/-- After a call to stop has completed the gate is stopped. -/
theorem Counted.stopped_of_finished_run (hs : s.Counted) (ops : List Op)
    (hfinished : (s.run ops).flatMap Step.finished ≠ []) :
    (s.after ops).gate = stoppedGate := by
  induction ops generalizing s with
  | nil => exact absurd rfl hfinished
  | cons op later ih =>
      by_cases hnow : (s.step op).finished = []
      · apply ih (hs.step op)
        simpa [Session.run, hnow] using hfinished
      · exact (hs.step op).stopped_after (hs.stopped_of_finished op hnow).2 later

/-- **Waiting calls keep nobody out.**  While a guard is held the gate is open,
and scopes enter as long as there is room for them. -/
theorem Counted.enter_of_guards (hs : s.Counted) (hguards : s.guards ≠ []) :
    s.gate.state = .active s.gate.word ∧
      (s.guards.length < 0xFFFFFFFE →
        ∀ kind name, (s.step (.enter kind name)).answer = .entered true) := by
  have hopen : s.gate.state ≠ .stopped := by
    intro hstopped
    exact hguards (hs.guards_of_stopped (eq_stoppedGate_iff.mpr hstopped))
  refine ⟨state_eq_active_iff.mpr ⟨rfl, mt state_eq_stopped_iff.mpr hopen⟩, ?_⟩
  intro hroom kind name
  have henter := Carries.enter?_of_room hs hopen hroom
  rw [answer_step]
  simp [Session.act, henter]

/-- **When the last guard goes, the calls that wait complete**, all of them and
no others. -/
theorem Counted.finished_of_last_guard (hs : s.Counted) (hwaits : s.waiting ≠ [] → s.guards ≠ [])
    (hwaiting : s.waiting ≠ []) (op : Op) (hlast : (s.act op).2.guards = []) :
    (s.step op).finished = s.waiting ∧ (s.step op).session.waiting = [] ∧
      (s.step op).session.gate = stoppedGate := by
  have hop : op ≠ .stop := by
    intro heq
    subst heq
    rw [hs.act_stop, if_neg (hwaits hwaiting)] at hlast
    exact hwaits hwaiting hlast
  obtain ⟨hkept, -, hanswer⟩ := act_of_ne_stop s hop
  rcases hs.step_cases op with ⟨hwaits', -⟩ | ⟨-, -, hstep⟩
  · rw [hkept] at hwaits'
    exact absurd hlast (hwaits' hwaiting)
  · rw [hstep]
    exact ⟨by simp [Step.finished, hanswer, hkept], rfl, rfl⟩

/-- **Nothing happens at a stopped gate.** -/
theorem Counted.shut_of_stopped (hs : s.Counted) (hgate : s.gate = stoppedGate) :
    s.gate.state = .stopped ∧ s.gate.scopes = 0 ∧ s.guards = [] ∧
      (∀ kind name, (s.step (.enter kind name)).answer = .entered false) ∧
      (s.step .unwind).answer = .unwound none ∧ (s.step .stop).answer = .stopped true := by
  have hnone : s.gate.enter? = none := by
    rw [hgate]
    rfl
  have hguards := hs.guards_of_stopped hgate
  refine ⟨eq_stoppedGate_iff.mp hgate, ?_, hguards, ?_, ?_, ?_⟩
  · rw [hgate]
    rfl
  · intro kind name
    rw [answer_step]
    simp [Session.act, hnone]
  · rw [answer_step]
    simp [Session.act, hnone]
  · rw [answer_step, hs.act_stop, if_pos hguards]

/-- **Stopping is a barrier, and it is final.**  After any operations:

* a call completes only where no guard is held;
* while calls wait, a guard is held, the gate is open, and scopes may enter as
  long as there is room for them;
* when the last guard goes, the calls that wait complete, all of them and no
  others, and the gate is stopped;
* every call has completed once or still waits, and when no guard is held
  every call has completed;
* once a call has completed, the gate is stopped for good: nothing is inside,
  nothing enters, and further calls complete at once. -/
theorem stop_is_barrier (ops : List Op) :
    let s := initial.after ops
    let finished := (initial.run ops).flatMap Step.finished
    (∀ op, (s.step op).finished ≠ [] →
        (s.act op).2.guards = [] ∧ (s.step op).session.gate.state = .stopped) ∧
      (s.waiting ≠ [] → s.guards ≠ [] ∧ s.gate.state = .active s.gate.word ∧
        (s.guards.length < 0xFFFFFFFE →
          ∀ kind name, (s.step (.enter kind name)).answer = .entered true)) ∧
      (∀ op, s.waiting ≠ [] → (s.act op).2.guards = [] →
        (s.step op).finished = s.waiting ∧ (s.step op).session.waiting = [] ∧
          (s.step op).session.gate.state = .stopped) ∧
      (s.calls = ops.count .stop ∧ (finished ++ s.waiting).Perm (List.range s.calls) ∧
        (s.guards = [] → finished.Perm (List.range s.calls))) ∧
      (finished ≠ [] → ∀ later,
        let t := s.after later
        t.gate.state = .stopped ∧ t.gate.scopes = 0 ∧ t.guards = [] ∧
          (∀ kind name, (t.step (.enter kind name)).answer = .entered false) ∧
          (t.step .unwind).answer = .unwound none ∧ (t.step .stop).answer = .stopped true) := by
  intro s finished
  have hs : s.Counted := counted_initial.after ops
  have hwaits : s.waiting ≠ [] → s.guards ≠ [] :=
    counted_initial.guards_of_waiting (fun hne => absurd rfl hne) ops
  have hnothing : ([] ++ initial.waiting).Perm (List.range initial.calls) := List.Perm.refl _
  obtain ⟨hcalls, hfate⟩ := counted_initial.finished_run ops hnothing
  refine ⟨?_, ?_, ?_, ⟨?_, hfate, ?_⟩, ?_⟩
  · intro op hdone
    obtain ⟨hguards, hgate⟩ := hs.stopped_of_finished op hdone
    exact ⟨hguards, eq_stoppedGate_iff.mp hgate⟩
  · intro hwaiting
    exact ⟨hwaits hwaiting, hs.enter_of_guards (hwaits hwaiting)⟩
  · intro op hwaiting hlast
    obtain ⟨hall, hnone, hgate⟩ := hs.finished_of_last_guard hwaits hwaiting op hlast
    exact ⟨hall, hnone, eq_stoppedGate_iff.mp hgate⟩
  · rw [hcalls]
    exact Nat.zero_add _
  · intro hguards
    have hnone : s.waiting = [] := by
      apply Classical.byContradiction
      intro hne
      exact hwaits hne hguards
    rw [hnone, List.append_nil] at hfate
    exact hfate
  · intro hdone later
    have hgate := counted_initial.stopped_of_finished_run ops hdone
    exact (hs.after later).shut_of_stopped (hs.stopped_after hgate later)

/-- A scope enters while a call waits; the call completes when both are gone. -/
example : (initial.run [.enter .attached "a", .stop, .enter .detached "b", .drop "a",
    .drop "b"]).map Step.finished = [[], [], [], [], [0]] := by decide

end HttpWire.Gate.Session
