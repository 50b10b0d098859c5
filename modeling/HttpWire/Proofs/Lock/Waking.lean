import HttpWire.Proofs.Lock.Settling

/-!
# Who is woken

An operation that frees the lock wakes those who are blocked.  All readers
among them get the lock, or one writer, as a reader or a writer came first
(`wake_of_free`); and everybody else stays blocked, so that the calls that have
got the lock and those that are blocked are together all that ever were
(`Tallied.granted_add_run`).

The main statement is `no_wakeup_lost`.
-/

namespace HttpWire.Lock.Session

variable {s : Session} {op : Op}

/-! ## Who gets the lock -/

/-- The guards of so many blocked calls that get the lock, when `granted` have
got it before. -/
def woken (granted count : Nat) (mode : Mode) : List Guard :=
  (List.range' (granted + 1) count).map fun n => ⟨wakeName n, mode⟩

/-- The first of the calls that get the lock, and the others behind it. -/
theorem woken_succ (granted count : Nat) (mode : Mode) : woken granted (count + 1) mode =
    ⟨wakeName (granted + 1), mode⟩ :: woken (granted + 1) count mode := by
  unfold woken
  rw [List.range'_succ, List.map_cons]

theorem length_woken (granted count : Nat) (mode : Mode) :
    (woken granted count mode).length = count := by
  unfold woken
  rw [List.length_map, List.length_range']

/-- While readers hold the lock, every reader that tries again gets it, and no
writer does. -/
theorem retry_of_reading {readers : Nat} (hlock : s.lock = ⟨readers + 1, false⟩)
    (calls : List Mode) :
    calls.foldl Session.retryOne s =
      { lock := ⟨readers + 1 + calls.count .shared, false⟩
        guards := s.guards ++ woken s.granted (calls.count .shared) .shared
        blocked := s.blocked ++ calls.filter (· = .unique)
        granted := s.granted + calls.count .shared } := by
  induction calls generalizing s readers with
  | nil => simp [woken, ← hlock]
  | cons mode later ih =>
      cases mode with
      | shared =>
          have hone : s.retryOne .shared =
              { s with
                lock := ⟨readers + 1 + 1, false⟩
                guards := s.guards ++ [⟨wakeName (s.granted + 1), .shared⟩]
                granted := s.granted + 1 } := by
            simp [Session.retryOne, take?, admits, take, hlock]
          rw [List.foldl_cons, hone, ih rfl, List.count_cons_self, woken_succ]
          simp [Nat.add_comm, Nat.add_left_comm]
      | unique =>
          have hone : s.retryOne .unique = { s with blocked := s.blocked ++ [.unique] } := by
            simp [Session.retryOne, take?, admits, hlock]
          rw [List.foldl_cons, hone, ih (s := { s with blocked := s.blocked ++ [.unique] }) hlock]
          simp

/-- **All readers that are woken get a free lock, or one writer does**, as a
reader or a writer comes first. -/
theorem wake_of_free (hlock : s.lock = Lock.free) (hblocked : s.blocked ≠ []) :
    (0 < s.blockedCount .shared ∧ s.wake =
        { lock := ⟨s.blockedCount .shared, false⟩
          guards := s.guards ++ woken s.granted (s.blockedCount .shared) .shared
          blocked := s.blocked.filter (· = .unique)
          granted := s.granted + s.blockedCount .shared }) ∨
      ∃ later, s.blocked = .unique :: later ∧ s.wake =
        { lock := ⟨0, true⟩
          guards := s.guards ++ woken s.granted 1 .unique
          blocked := later
          granted := s.granted + 1 } := by
  -- Whoever comes first gets the lock, and the others find it held in that mode.
  obtain ⟨mode, later, hcalls⟩ := List.exists_cons_of_ne_nil hblocked
  have hone : retryOne { s with blocked := [] } mode =
      { lock := Lock.free.take mode
        guards := s.guards ++ [⟨wakeName (s.granted + 1), mode⟩]
        blocked := []
        granted := s.granted + 1 } := by
    cases mode <;> simp [Session.retryOne, take?, admits, free, hlock]
  have hwake : s.wake = later.foldl Session.retryOne
      { lock := Lock.free.take mode
        guards := s.guards ++ [⟨wakeName (s.granted + 1), mode⟩]
        blocked := []
        granted := s.granted + 1 } := by
    unfold Session.wake
    rw [hcalls, List.foldl_cons, hone]
  cases mode with
  | shared =>
      refine Or.inl ⟨?_, ?_⟩
      · simp [blockedCount, hcalls]
      · have hfirst : Lock.free.take .shared = ⟨0 + 1, false⟩ := rfl
        rw [hwake, hfirst, retry_of_reading (s := ⟨⟨0 + 1, false⟩, _, _, _⟩) rfl]
        simp [blockedCount, hcalls, woken_succ, Nat.add_comm, Nat.add_left_comm]
  | unique =>
      refine Or.inr ⟨later, hcalls, ?_⟩
      rw [hwake, retry_of_refused]
      · simp [woken, take, free]
      · intro mode _
        cases mode <;> rfl

/-- An operation that frees the lock leaves no guard, and leaves those who are
blocked as they were, to be woken. -/
theorem Tallied.act_of_frees (hs : s.Tallied) (hfrees : s.frees op = true) :
    (s.step op).2 = (s.act op).2.wake ∧
      (s.act op).2.lock = Lock.free ∧ (s.act op).2.guards = [] ∧
      (s.act op).2.blocked = s.blocked ∧ (s.act op).2.granted = s.granted := by
  have hstep : (s.step op).2 = (s.act op).2.wake := by rw [hs.step_eq op, if_pos hfrees]
  obtain ⟨⟨before, mode⟩, hmem, hfree⟩ := List.any_eq_true.mp hfrees
  have hlock : (s.act op).2.lock = Lock.free := by
    rw [(lock_act s op).1 before mode hmem]
    exact of_decide_eq_true hfree
  have hguards : (s.act op).2.guards = [] := by
    apply (Tallies.admits_unique_iff (hs.act op)).mp
    rw [hlock]
    rfl
  obtain ⟨hgranted, ⟨-, hblocked⟩ | ⟨mode', -, hnone, -⟩⟩ := act_blocked s op
  · exact ⟨hstep, hlock, hguards, hblocked, hgranted⟩
  · rw [hnone] at hmem
    exact absurd hmem List.not_mem_nil

/-- **What an operation that frees the lock comes to for those who are
blocked.** -/
theorem Tallied.step_of_frees (hs : s.Tallied) (hfrees : s.frees op = true)
    (hblocked : s.blocked ≠ []) :
    (0 < s.blockedCount .shared ∧
        (s.step op).2.guards = woken s.granted (s.blockedCount .shared) .shared ∧
        (s.step op).2.blocked = s.blocked.filter (· = .unique)) ∨
      ((s.step op).2.guards = woken s.granted 1 .unique ∧
        s.blocked = .unique :: (s.step op).2.blocked) := by
  obtain ⟨hstep, hlock, hguards, hsame, hgranted⟩ := hs.act_of_frees hfrees
  rcases wake_of_free hlock (hsame ▸ hblocked) with ⟨hreaders, hwake⟩ | ⟨later, hcalls, hwake⟩
  · rw [blockedCount, hsame] at hreaders
    rw [blockedCount, hsame, hguards, hgranted, List.nil_append] at hwake
    rw [hstep, hwake]
    exact Or.inl ⟨hreaders, rfl, rfl⟩
  · rw [hguards, hgranted, List.nil_append] at hwake
    rw [hstep, hwake]
    exact Or.inr ⟨rfl, hsame.symm.trans hcalls⟩

/-- **Blocked calls get the lock when it is freed, and then only**; and each
that does has a guard. -/
theorem Tallied.granted_step (hs : s.Tallied) (op : Op) :
    (s.step op).2.granted =
      s.granted + if s.frees op = true then (s.step op).2.guards.length else 0 := by
  by_cases hfrees : s.frees op = true
  · obtain ⟨hstep, hlock, hguards, -, hgranted⟩ := hs.act_of_frees hfrees
    rw [hstep, if_pos hfrees]
    by_cases hblocked : (s.act op).2.blocked = []
    · rw [(settled_of_unblocked hblocked).wake, hguards, hgranted]
      rfl
    · rcases wake_of_free hlock hblocked with ⟨-, hwake⟩ | ⟨later, -, hwake⟩
      · rw [hwake, hguards, List.nil_append, length_woken, hgranted]
      · rw [hwake, hguards, List.nil_append, length_woken, hgranted]
  · rw [hs.step_eq op, if_neg hfrees, if_neg hfrees]
    exact (act_blocked s op).1

/-! ## Every blocked call is counted -/

/-- A call that tries again is either granted or blocked. -/
theorem granted_add_retryOne (s : Session) (mode : Mode) :
    (s.retryOne mode).granted + (s.retryOne mode).blocked.length =
      s.granted + s.blocked.length + 1 := by
  unfold Session.retryOne
  split
  · simp only
    omega
  · simp only [List.length_append, List.length_singleton]
    omega

/-- **Those who try again get the lock or stay blocked.** -/
theorem granted_add_wake (s : Session) :
    s.wake.granted + s.wake.blocked.length = s.granted + s.blocked.length := by
  have hrun : ∀ (calls : List Mode) (t : Session),
      (calls.foldl Session.retryOne t).granted + (calls.foldl Session.retryOne t).blocked.length =
        t.granted + t.blocked.length + calls.length := by
    intro calls
    induction calls with
    | nil => exact fun _ => rfl
    | cons mode later ih =>
        intro t
        rw [List.foldl_cons, ih, granted_add_retryOne, List.length_cons]
        omega
  exact hrun s.blocked { s with blocked := [] }

/-- **No blocked call is lost or granted twice by an operation.** -/
theorem Tallied.granted_add_step (hs : s.Tallied) (op : Op) :
    (s.step op).2.granted + (s.step op).2.blocked.length =
      s.granted + s.blocked.length + if (s.step op).1 = .blocks then 1 else 0 := by
  have hact : (s.act op).2.granted + (s.act op).2.blocked.length =
      s.granted + s.blocked.length + if (s.act op).1 = .blocks then 1 else 0 := by
    obtain ⟨hgranted, ⟨hanswer, hblocked⟩ | ⟨mode, -, -, hact⟩⟩ := act_blocked s op
    · rw [hgranted, hblocked, if_neg hanswer, Nat.add_zero]
    · rw [hact, if_pos rfl, List.length_append, List.length_singleton, Nat.add_assoc]
  rw [hs.step_eq op]
  split
  · rw [granted_add_wake, hact]
  · exact hact

/-- **No blocked call is lost or granted twice in a run.**  The induction is on
the operations, from any session that is counted. -/
theorem Tallied.granted_add_run (hs : s.Tallied) (ops : List Op) :
    (s.after ops).granted + (s.after ops).blocked.length =
      s.granted + s.blocked.length + (s.run ops).countP (·.1 = .blocks) := by
  induction ops generalizing s with
  | nil => rfl
  | cons op later ih =>
      have hlater := ih (hs.step op)
      have hfirst := hs.granted_add_step op
      have hafter : s.after (op :: later) = (s.step op).2.after later := rfl
      rw [hafter, hlater, hfirst, Session.run, List.countP_cons]
      simp only [decide_eq_true_eq]
      omega

/-- **No call is blocked for nothing, and none gets the lock twice.**  After
any operations:

* where a reader is blocked a unique guard is held, where a writer is blocked
  some guard is, and where no guard is held nobody is blocked;
* an operation that frees the lock gives it to all blocked readers, every
  writer staying blocked; or to one writer, everybody else staying blocked;
* only then do blocked calls get the lock, each with a guard of its own;
* the calls that were blocked are those that got the lock later and those that
  are blocked still. -/
theorem no_wakeup_lost (ops : List Op) :
    let s := initial.after ops
    ((.shared ∈ s.blocked → s.held .unique = 1) ∧ (.unique ∈ s.blocked → s.guards ≠ []) ∧
        (s.guards = [] → s.blocked = [])) ∧
      (∀ op, s.frees op = true → s.blocked ≠ [] →
        (0 < s.blockedCount .shared ∧
            (s.step op).2.guards = woken s.granted (s.blockedCount .shared) .shared ∧
            (s.step op).2.blocked = s.blocked.filter (· = .unique)) ∨
          ((s.step op).2.guards = woken s.granted 1 .unique ∧
            s.blocked = .unique :: (s.step op).2.blocked)) ∧
      (∀ op, (s.step op).2.granted =
        s.granted + if s.frees op = true then (s.step op).2.guards.length else 0) ∧
      (initial.run ops).countP (·.1 = .blocks) = s.granted + s.blocked.length := by
  intro s
  have hcount : s.Tallied := tallied_initial.through _
  have hs : s.Settled := settled_initial.after tallied_initial ops
  refine ⟨⟨hs.unique_of_reader hcount, hs.guards_of_writer hcount, hs.nobody_blocked hcount⟩,
    ?_, hcount.granted_step, ?_⟩
  · intro op hfrees hblocked
    exact hcount.step_of_frees hfrees hblocked
  · have hrun := tallied_initial.granted_add_run ops
    rw [hrun]
    exact (Nat.zero_add _).symm

/-- Both readers get the lock when a writer goes, though a writer waits between
them. -/
example : initial.after [.await .unique "a", .await .shared "b", .await .unique "c",
    .await .shared "d", .drop "a"] =
      ⟨⟨2, false⟩, [⟨"w1", .shared⟩, ⟨"w2", .shared⟩], [.unique], 2⟩ := by decide

end HttpWire.Lock.Session
