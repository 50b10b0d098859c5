import HttpWire.Gate.Session

/-!
# A gate counts its guards

The word of a gate holds a count and a mark for "stopped" at once, and leaving
subtracts one from it without a look.  What keeps the two apart is an
agreement between the word and the guards that are held: either the gate is
open and the word is the number of guards, or it is stopped and there are none
(`Carries`).

The agreement is kept by each of the three ways to change the word: a scope
that enters adds one, and is refused where the sum would be the mark; a scope
that leaves has its own guard, so there is one to subtract; and the mark is set
over a zero only.  Operations are made of these (`Session.effect`), so it is
kept by everything done at a gate, in any order and with the waiting calls
trying again at any time (`Session.Counted.through`).

The main statement, `guards_counted`, adds what this means for leaving: no
scope ever leaves at a word that is zero or the mark.
-/

namespace HttpWire
namespace Gate

/-- The gate stands for `n` guards: it is stopped and there are none, or it is
open and its word is their number. -/
def Carries (g : Gate) (n : Nat) : Prop :=
  (g.state = .stopped ∧ n = 0) ∨ ∃ k, g.state = .active k ∧ k.toNat = n

variable {g h : Gate} {n : Nat} {k : UInt32}

/-! ## The word as a number -/

/-- The word of a stopped gate is the one word for that. -/
theorem state_eq_stopped_iff : g.state = .stopped ↔ g.word = stoppedWord := by
  unfold state
  split <;> simp [*]

/-- The word of an open gate is the number of its scopes. -/
theorem state_eq_active_iff : g.state = .active k ↔ g.word = k ∧ k ≠ stoppedWord := by
  unfold state
  split
  · rename_i hword
    constructor
    · intro hk
      cases hk
    · intro hk
      exact absurd (hk.1.symm.trans hword) hk.2
  · rename_i hword
    constructor
    · intro hk
      cases hk
      exact ⟨rfl, hword⟩
    · intro hk
      rw [hk.1]

/-- There is but one stopped gate. -/
theorem eq_stoppedGate_iff : g = stoppedGate ↔ g.state = .stopped := by
  rw [state_eq_stopped_iff]
  constructor
  · intro hg
    rw [hg]
    rfl
  · intro hword
    cases g
    exact congrArg Gate.mk hword

/-- A gate stands for at most two guards less than there are words. -/
theorem carries_iff : g.Carries n ↔
    (g.word = stoppedWord ∧ n = 0) ∨ (g.word.toNat = n ∧ n < 0xFFFFFFFF) := by
  have hmark : stoppedWord.toNat = 0xFFFFFFFF := rfl
  unfold Carries
  rw [state_eq_stopped_iff]
  refine or_congr_right ?_
  constructor
  · intro hopen
    obtain ⟨k, hstate, hk⟩ := hopen
    obtain ⟨hword, hne⟩ := state_eq_active_iff.mp hstate
    have hlt := k.toNat_lt
    have hne' : k.toNat ≠ stoppedWord.toNat := fun heq => hne (UInt32.toNat_inj.mp heq)
    rw [hword]
    omega
  · intro hopen
    refine ⟨g.word, state_eq_active_iff.mpr ⟨rfl, ?_⟩, hopen.1⟩
    intro heq
    rw [heq] at hopen
    omega

theorem carries_initial : initial.Carries 0 :=
  carries_iff.mpr (Or.inr ⟨rfl, by decide⟩)

theorem carries_stoppedGate : stoppedGate.Carries 0 :=
  carries_iff.mpr (Or.inl ⟨rfl, rfl⟩)

/-- The number of scopes is the number of guards. -/
theorem Carries.scopes (hg : g.Carries n) : g.scopes.toNat = n := by
  unfold Gate.scopes
  rcases hg with ⟨hstate, hn⟩ | ⟨k, hstate, hk⟩
  · simp [hstate, hn]
  · simp [hstate, hk]

/-! ## The three changes -/

/-- Two words have no room for one more scope: the mark, and the one below. -/
theorem enter?_eq :
    g.enter? = if g.word.toNat < 0xFFFFFFFE then some ⟨g.word + 1⟩ else none := by
  have hmark : stoppedWord.toNat = 0xFFFFFFFF := rfl
  have hnext : g.word + 1 = stoppedWord ↔ g.word.toNat = 0xFFFFFFFE := by
    rw [← UInt32.toNat_inj, UInt32.toNat_add]
    have hlt := g.word.toNat_lt
    have hone : (1 : UInt32).toNat = 1 := rfl
    omega
  cases hstate : g.state with
  | stopped =>
      have hword := state_eq_stopped_iff.mp hstate
      simp [enter?, hstate, hword, hmark]
  | active n =>
      obtain ⟨rfl, hne⟩ := state_eq_active_iff.mp hstate
      have hne' : g.word.toNat ≠ stoppedWord.toNat := fun heq => hne (UInt32.toNat_inj.mp heq)
      have hlt := g.word.toNat_lt
      simp only [enter?, hstate, hnext]
      by_cases hroom : g.word.toNat < 0xFFFFFFFE
      · rw [if_pos hroom, if_neg (by omega)]
      · rw [if_neg hroom, if_pos (by omega)]

/-- Entering adds one guard to an open gate. -/
theorem Carries.enter (hg : g.Carries n) (henter : g.enter? = some h) :
    h.Carries (n + 1) := by
  rw [enter?_eq] at henter
  split at henter
  · rename_i hroom
    cases henter
    have hadd : (g.word + 1).toNat = g.word.toNat + 1 := by
      rw [UInt32.toNat_add]
      have hone : (1 : UInt32).toNat = 1 := rfl
      omega
    refine carries_iff.mpr (Or.inr ?_)
    rcases carries_iff.mp hg with ⟨hword, -⟩ | ⟨hword, -⟩
    · rw [hword] at hroom
      exact absurd hroom (by decide)
    · simp only [hadd]
      omega
  · cases henter

/-- An open gate lets scopes in as long as there is room for one more. -/
theorem Carries.enter?_of_room (hg : g.Carries n) (hopen : g.state ≠ .stopped)
    (hroom : n < 0xFFFFFFFE) : g.enter? = some ⟨g.word + 1⟩ := by
  rw [enter?_eq]
  rcases carries_iff.mp hg with ⟨hword, -⟩ | ⟨hword, -⟩
  · exact absurd (state_eq_stopped_iff.mpr hword) hopen
  · rw [hword, if_pos hroom]

/-- **Leaving has a guard of its own to give back.**  Where there is one, the
gate is open before and after, and the word does not wrap around. -/
theorem Carries.leave (hg : g.Carries (n + 1)) :
    g.leave.Carries n ∧ g.word ≠ 0 ∧ g.word ≠ stoppedWord ∧
      g.leave.state = .active (g.word - 1) := by
  have hmark : stoppedWord.toNat = 0xFFFFFFFF := rfl
  rcases carries_iff.mp hg with ⟨-, hn⟩ | ⟨hword, hlt⟩
  · exact absurd hn (Nat.succ_ne_zero n)
  · have hpos : g.word ≠ 0 := by
      intro heq
      rw [heq] at hword
      exact absurd hword (by simp)
    have hone : (1 : UInt32) ≤ g.word := by
      rw [UInt32.le_iff_toNat_le, hword]
      exact Nat.succ_le_succ (Nat.zero_le n)
    have hsub : (g.word - 1).toNat = n := by
      rw [UInt32.toNat_sub_of_le _ _ hone, hword]
      rfl
    have hopen : g.word ≠ stoppedWord := by
      intro heq
      rw [heq] at hword
      omega
    refine ⟨carries_iff.mpr (Or.inr ⟨hsub, by omega⟩), hpos, hopen, ?_⟩
    refine state_eq_active_iff.mpr ⟨rfl, ?_⟩
    intro heq
    rw [heq] at hsub
    omega

/-- Calling for a stop succeeds where there are no guards, and leaves the gate
stopped. -/
theorem Carries.stop?_eq (hg : g.Carries n) :
    g.stop? = if n = 0 then some stoppedGate else none := by
  have hmark : stoppedWord.toNat = 0xFFFFFFFF := rfl
  unfold stop?
  rcases carries_iff.mp hg with ⟨hword, rfl⟩ | ⟨hword, hlt⟩
  · have hg' : g = stoppedGate := eq_stoppedGate_iff.mpr (state_eq_stopped_iff.mpr hword)
    rw [hg']
    rfl
  · have hzero : g.word = 0 ↔ n = 0 := by
      rw [← UInt32.toNat_inj, hword]
      rfl
    have hopen : g.word ≠ stoppedWord := by
      intro heq
      rw [heq] at hword
      omega
    simp only [hzero, if_neg hopen]

/-- A gate that stops stands for as many guards as before, which is none. -/
theorem Carries.stop (hg : g.Carries n) (hstop : g.stop? = some h) : h.Carries n := by
  rw [hg.stop?_eq] at hstop
  split at hstop
  · rename_i hn
    cases hstop
    rw [hn]
    exact carries_stoppedGate
  · cases hstop

/-! ## Everything done at a gate -/

/-- One turn at a gate: something is done, or a waiting call tries again. -/
inductive Turn where
  /-- An operation, after which all waiting calls try again. -/
  | whole (op : Op)
  /-- An operation alone; the waiting calls come to it later. -/
  | alone (op : Op)
  /-- The waiting call of a number tries again. -/
  | again (call : Nat)
  deriving DecidableEq, Repr

namespace Session

variable {s : Session} {op : Op}

/-- The session after a turn. -/
def turn (s : Session) : Turn → Session
  | .whole op => (s.step op).session
  | .alone op => (s.act op).2
  | .again call =>
    if call ∈ s.waiting then ({ s with waiting := s.waiting.erase call }.retryOne call).2 else s

/-- The session after turns, one after the other. -/
def through (s : Session) (turns : List Turn) : Session :=
  turns.foldl turn s

/-- The gates that scopes leave in an operation, each as it is just before. -/
def left (s : Session) : Op → List Gate
  | .enter _ name =>
    match s.gate.enter? with
    | some entered => if s.holds name then [entered] else []
    | none => []
  | .drop name => if s.holds name then [s.gate] else []
  | .unwind => s.gate.enter?.toList
  | .stop => []
  | .look => []

/-- The gate stands for the guards that are held. -/
def Counted (s : Session) : Prop :=
  s.gate.Carries s.guards.length

/-! ## What an operation does -/

/-- What an operation comes to before waiting calls try again.  A scope leaves
that was inside already, or one that has just entered. -/
inductive Effect (s : Session) (op : Op) : Prop where
  | nothing (answer : Answer) (hop : op ≠ .stop) (hanswer : ∀ atOnce, answer ≠ .stopped atOnce)
      (hleft : s.left op = []) (hact : s.act op = (answer, s))
  | enters (entered : Gate) (g : Guard) (hop : op ≠ .stop) (henter : s.gate.enter? = some entered)
      (hleft : s.left op = [])
      (hact : s.act op =
        (.entered true, { s with gate := entered, guards := s.guards ++ [g] }))
  | leaves (before : Gate) (guards : List Guard) (answer : Answer) (hop : op ≠ .stop)
      (hanswer : ∀ atOnce, answer ≠ .stopped atOnce) (hleft : s.left op = [before])
      (hbefore : before = s.gate ∧ guards.length + 1 = s.guards.length ∨
        s.gate.enter? = some before ∧ guards.length = s.guards.length)
      (hact : s.act op = (answer, { s with gate := before.leave, guards }))
  | stops (stopped : Gate) (hop : op = .stop) (hstop : s.gate.stop? = some stopped)
      (hact : s.act op = (.stopped true, { s with gate := stopped, calls := s.calls + 1 }))
  | waits (hop : op = .stop) (hstop : s.gate.stop? = none)
      (hact : s.act op = (.stopped false,
        { s with waiting := s.waiting ++ [s.calls], calls := s.calls + 1 }))

/-- Dropping a guard that is held leaves one guard less. -/
theorem length_eraseP_of_holds {guards : List Guard} {name : String}
    (hheld : guards.any (·.name = name) = true) :
    (guards.eraseP (·.name = name)).length + 1 = guards.length := by
  obtain ⟨g, hmem, hname⟩ := List.any_eq_true.mp hheld
  rw [List.length_eraseP_of_mem hmem hname]
  have hpos := List.length_pos_of_mem hmem
  omega

/-- **Every operation does one of the five things.** -/
theorem effect (s : Session) (op : Op) : Effect s op := by
  cases op with
  | enter kind name =>
      cases henter : s.gate.enter? with
      | none =>
          refine Effect.nothing (.entered false) (by simp) (by simp) ?_ ?_
          · simp [left, henter]
          · simp [act, henter]
      | some entered =>
          by_cases hheld : s.holds name
          · -- The older guard of the name gives way, and as many are held as before.
            have hkept : (s.guards ++ [(⟨name, kind⟩ : Guard)]).any (·.name = name) = true := by
              simp
            have hlength := length_eraseP_of_holds hkept
            refine Effect.leaves entered
              ((s.guards ++ [(⟨name, kind⟩ : Guard)]).eraseP (·.name = name)) (.entered true)
              (by simp) (by simp) ?_ (Or.inr ⟨henter, ?_⟩) ?_
            · simp [left, henter, hheld]
            · rw [List.length_append, List.length_singleton] at hlength
              exact Nat.succ.inj hlength
            · simp [act, keep, drop, henter, hheld]
          · refine Effect.enters entered ⟨name, kind⟩ (by simp) henter ?_ ?_
            · simp [left, henter, hheld]
            · simp [act, keep, henter, hheld]
  | drop name =>
      by_cases hheld : s.holds name
      · refine Effect.leaves s.gate (s.guards.eraseP (·.name = name)) (.dropped true)
          (by simp) (by simp) ?_ (Or.inl ⟨rfl, length_eraseP_of_holds hheld⟩) ?_
        · simp [left, hheld]
        · simp [act, drop, hheld]
      · refine Effect.nothing (.dropped false) (by simp) (by simp) ?_ ?_
        · simp [left, hheld]
        · simp [act, hheld]
  | unwind =>
      cases henter : s.gate.enter? with
      | none =>
          refine Effect.nothing (.unwound none) (by simp) (by simp) ?_ ?_
          · simp [left, henter]
          · simp [act, henter]
      | some entered =>
          refine Effect.leaves entered s.guards (.unwound (some entered.scopes))
            (by simp) (by simp) ?_ (Or.inr ⟨henter, rfl⟩) ?_
          · simp [left, henter]
          · simp [act, henter]
  | stop =>
      cases hstop : s.gate.stop? with
      | none => exact Effect.waits rfl hstop (by simp [act, hstop])
      | some stopped => exact Effect.stops stopped rfl hstop (by simp [act, hstop])
  | look => exact Effect.nothing (.seen s.gate.state) (by simp) (by simp) rfl rfl

/-- An operation changes the gate by a scope that leaves; or it has none, and
changes it by a scope that enters, by stopping it, or not at all. -/
theorem gate_act (s : Session) (op : Op) :
    (∀ g ∈ s.left op, (s.act op).2.gate = g.leave) ∧
      (s.left op = [] → (s.act op).2.gate = s.gate ∨
        s.gate.enter? = some (s.act op).2.gate ∨ s.gate.stop? = some (s.act op).2.gate) := by
  cases effect s op with
  | nothing answer hop hanswer hleft hact => simp [hleft, hact]
  | enters entered g hop henter hleft hact => simp [hleft, hact, henter]
  | leaves before guards answer hop hanswer hleft hbefore hact => simp [hleft, hact]
  | stops stopped hop hstop hact => simp [hop, left, hop ▸ hact, hstop]
  | waits hop hstop hact => simp [hop, left, hop ▸ hact]

/-! ## The count is kept -/

theorem counted_initial : initial.Counted :=
  carries_initial

/-- The gate that a scope leaves stands for its guard, and for those that
remain. -/
theorem Counted.before (hs : s.Counted) {before : Gate} {guards : List Guard}
    (hbefore : before = s.gate ∧ guards.length + 1 = s.guards.length ∨
      s.gate.enter? = some before ∧ guards.length = s.guards.length) :
    before.Carries (guards.length + 1) := by
  rcases hbefore with ⟨rfl, hlength⟩ | ⟨henter, hlength⟩
  · rw [hlength]
    exact hs
  · rw [hlength]
    exact Carries.enter hs henter

/-- Wherever a scope leaves, its guard is still counted. -/
theorem Counted.left (hs : s.Counted) {g : Gate} (hg : g ∈ s.left op) :
    ∃ n, g.Carries (n + 1) := by
  cases effect s op with
  | nothing answer hop hanswer hleft hact => simp [hleft] at hg
  | enters entered g hop henter hleft hact => simp [hleft] at hg
  | leaves before guards answer hop hanswer hleft hbefore hact =>
      rw [hleft, List.mem_singleton] at hg
      rw [hg]
      exact ⟨_, hs.before hbefore⟩
  | stops stopped hop hstop hact => simp [hop, Session.left] at hg
  | waits hop hstop hact => simp [hop, Session.left] at hg

/-- **An operation keeps the count.** -/
theorem Counted.act (hs : s.Counted) (op : Op) : (s.act op).2.Counted := by
  cases effect s op with
  | nothing answer hop hanswer hleft hact =>
      rw [hact]
      exact hs
  | enters entered g hop henter hleft hact =>
      rw [hact]
      unfold Counted
      rw [List.length_append]
      exact Carries.enter hs henter
  | leaves before guards answer hop hanswer hleft hbefore hact =>
      rw [hact]
      exact (hs.before hbefore).leave.1
  | stops stopped hop hstop hact =>
      rw [hact]
      exact Carries.stop hs hstop
  | waits hop hstop hact =>
      rw [hact]
      exact hs

theorem Counted.retryOne (hs : s.Counted) (call : Nat) : (s.retryOne call).2.Counted := by
  unfold Session.retryOne
  split
  · rename_i stopped hstop
    exact Carries.stop hs hstop
  · exact hs

theorem Counted.retry (hs : s.Counted) (calls : List Nat) : (s.retry calls).2.Counted := by
  induction calls generalizing s with
  | nil => exact hs
  | cons call later ih => exact ih (hs.retryOne call)

theorem Counted.settle (hs : s.Counted) : s.settle.2.Counted :=
  Counted.retry (s := { s with waiting := [] }) hs s.waiting

/-- An operation with all that completes after it keeps the count. -/
theorem Counted.step (hs : s.Counted) (op : Op) : (s.step op).session.Counted :=
  (hs.act op).settle

/-- Every turn keeps the count. -/
theorem Counted.turn (hs : s.Counted) (t : Turn) : (s.turn t).Counted := by
  cases t with
  | whole op => exact hs.step op
  | alone op => exact hs.act op
  | again call =>
      simp only [Session.turn]
      split
      · exact Counted.retryOne (s := { s with waiting := s.waiting.erase call }) hs call
      · exact hs

/-- **The count is kept through all turns.**  The induction is on the turns,
from any session that is counted. -/
theorem Counted.through (hs : s.Counted) (turns : List Turn) : (s.through turns).Counted := by
  induction turns generalizing s with
  | nil => exact hs
  | cons t later ih => exact ih (hs.turn t)

/-- **A gate counts exactly its guards.**  Whatever has been done, with the
waiting calls trying again whenever they like, the gate is either stopped and
has no guards, or open with the number of its guards, also as seen by a scope
that unwinds.  Where a scope leaves, the word is neither zero nor the mark, so
leaving takes an open gate to an open gate with one scope less. -/
theorem guards_counted (turns : List Turn) :
    let s := initial.through turns
    ((s.gate.state = .stopped ∧ s.guards = []) ∨
        ∃ k, s.gate.state = .active k ∧ k.toNat = s.guards.length) ∧
      s.gate.scopes.toNat = s.guards.length ∧
      (∀ inside, (s.act .unwind).1 = .unwound (some inside) →
        inside.toNat = s.guards.length + 1) ∧
      ∀ op,
        (s.left op = [] → (s.act op).2.gate = s.gate ∨
          s.gate.enter? = some (s.act op).2.gate ∨ s.gate.stop? = some (s.act op).2.gate) ∧
        ∀ g ∈ s.left op, (s.act op).2.gate = g.leave ∧ g.word ≠ 0 ∧ g.word ≠ stoppedWord ∧
          g.state = .active g.word ∧ g.leave.state = .active (g.word - 1) := by
  intro s
  have hs : s.Counted := counted_initial.through turns
  refine ⟨?_, Carries.scopes hs, ?_, ?_⟩
  · rcases hs with ⟨hstopped, hnone⟩ | hopen
    · exact Or.inl ⟨hstopped, List.length_eq_zero_iff.mp hnone⟩
    · exact Or.inr hopen
  · intro inside hinside
    cases henter : s.gate.enter? with
    | none => simp [Session.act, henter] at hinside
    | some entered =>
        simp only [Session.act, henter, Answer.unwound.injEq, Option.some.injEq] at hinside
        rw [← hinside]
        exact (Carries.enter hs henter).scopes
  · intro op
    obtain ⟨hleave, hother⟩ := gate_act s op
    refine ⟨hother, ?_⟩
    intro g hg
    obtain ⟨n, hcarries⟩ := hs.left hg
    obtain ⟨-, hpos, hopen, hafter⟩ := hcarries.leave
    exact ⟨hleave g hg, hpos, hopen, state_eq_active_iff.mpr ⟨rfl, hopen⟩, hafter⟩

end Session
end Gate
end HttpWire
