import HttpWire.Source.Line
import HttpWire.Source.Signals

/-!
# Reading a line off a row of signals

Octets that do not end a piece are simply handed on, so a read is decided by
what stands behind them: the octet that ends it, a failure, the end of the
data, or the bound.  `Signal.takeThrough_append` says so once, and the five
ways in which a line can be read follow from it:

* `readLine_of_lf` — the line ends with LF within the bound;
* `readLine_of_unended` — the data end behind a line without LF;
* `readLine_of_excess` — there is one octet more than the bound;
* `readLine_of_failure` — the read fails in the middle of the line;
* `readLine_of_nil` — there is nothing left.

Each says what is found and which signals are left.  The last section compares
two reads of one source with different bounds: either the smaller bound is
never met and both do the same, or it is met and the longer read goes on.
-/

namespace HttpWire

namespace Signal

variable {last : UInt8 → Bool} {body : Octets} {limit : Nat}

/-- Octets among which none is the last one are taken, and the read goes on
behind them. -/
theorem takeThrough_append (hbody : ∀ b ∈ body, last b = false)
    (hlimit : body.length ≤ limit) (tail : List Signal) :
    takeThrough last limit (body.map .octet ++ tail) =
      ⟨body ++ (takeThrough last (limit - body.length) tail).octets,
        (takeThrough last (limit - body.length) tail).rest,
        (takeThrough last (limit - body.length) tail).failed⟩ := by
  induction body generalizing limit with
  | nil => rfl
  | cons b body ih =>
      obtain ⟨n, rfl⟩ := Nat.exists_eq_add_one.mpr (Nat.lt_of_lt_of_le (Nat.succ_pos _) hlimit)
      have hb : last b = false := hbody b List.mem_cons_self
      have hrest := @ih n (fun c hc => hbody c (List.mem_cons_of_mem _ hc))
        (by simpa using hlimit)
      simp [takeThrough, hb, hrest]

/-- What is left is the end of what there was. -/
theorem takeThrough_rest_suffix (last : UInt8 → Bool) (limit : Nat) (signals : List Signal) :
    (takeThrough last limit signals).rest <:+ signals := by
  fun_induction takeThrough last limit signals with
  | case1 signals => exact List.suffix_rfl
  | case2 => exact List.suffix_rfl
  | case3 limit rest => exact List.suffix_cons _ _
  | case4 limit b rest hb => exact List.suffix_cons _ _
  | case5 limit b rest hb taken ih => exact ih.trans (List.suffix_cons _ _)

/-- A longer read leaves the end of what a shorter one leaves. -/
theorem takeThrough_rest_suffix_of_le (last : UInt8 → Bool) {n m : Nat} (h : n ≤ m)
    (signals : List Signal) :
    (takeThrough last m signals).rest <:+ (takeThrough last n signals).rest := by
  induction signals generalizing n m with
  | nil => cases n <;> cases m <;> exact List.suffix_rfl
  | cons signal rest ih =>
      cases n with
      | zero => exact takeThrough_rest_suffix _ _ _
      | succ n =>
          obtain ⟨m, rfl⟩ := Nat.exists_eq_add_one.mpr (Nat.lt_of_lt_of_le (Nat.succ_pos n) h)
          cases signal with
          | failure => exact List.suffix_rfl
          | octet b =>
              have hrest := ih (n := n) (m := m) (by omega)
              by_cases hb : last b = true
              · simp [takeThrough, hb]
              · simpa [takeThrough, hb] using hrest

end Signal

namespace Source

variable {size : UInt64} {s : Source} {body : Octets} {tail : List Signal}

/-- A line is judged by the octets taken and by whether the read failed, and
the signals left are those that the read leaves. -/
theorem readLine_eq_of_signals {octets : Octets} {failed : Bool}
    (h : Signal.takeThrough (· == Line.lf) (Line.reach size) s.signals =
      ⟨octets, tail, failed⟩) :
    ∃ rest, s.readLine size = (Line.ofTaken size ⟨octets, rest, failed⟩, rest) ∧
      rest.signals = tail := by
  have htaken := signals_takeThrough (· == Line.lf) (Line.reach size) s
  rw [h, Signal.Taken.mk.injEq] at htaken
  obtain ⟨hoctets, hrest, hfailed⟩ := htaken
  refine ⟨(s.takeThrough (· == Line.lf) (Line.reach size)).rest, ?_, hrest.symm⟩
  rw [hoctets, hfailed]
  rfl

theorem le_reach (size : UInt64) : size.toNat ≤ Line.reach size := by
  have hsize := size.toNat_lt
  unfold Line.reach
  simp only [UInt64.size]
  omega

/-- Below the greatest bound one octet more is within reach. -/
theorem reach_of_lt (h : size.toNat < UInt64.size - 1) : Line.reach size = size.toNat + 1 := by
  unfold Line.reach
  omega

theorem readLine_suffix (size : UInt64) (s : Source) :
    (s.readLine size).2.signals <:+ s.signals := by
  have hsuffix :=
    Signal.takeThrough_rest_suffix (· == Line.lf) (Line.reach size) s.signals
  simp only [signals_takeThrough] at hsuffix
  exact hsuffix

theorem not_lf (hbody : Line.lf ∉ body) : ∀ b ∈ body, (b == Line.lf) = false := by
  intro b hb
  have hne : b ≠ Line.lf := fun h => hbody (h ▸ hb)
  exact beq_false_of_ne hne

/-- **A line that ends within the bound is read through its LF.** -/
theorem readLine_of_lf (hbody : Line.lf ∉ body) (hsize : body.length < size.toNat)
    (h : s.signals = body.map .octet ++ .octet Line.lf :: tail) :
    ∃ rest, s.readLine size = (.text (Line.textOf (body ++ [Line.lf])), rest) ∧
      rest.signals = tail := by
  have hreach := le_reach size
  obtain ⟨n, hn⟩ : ∃ n, Line.reach size - body.length = n + 1 :=
    ⟨Line.reach size - body.length - 1, by omega⟩
  have htake := Signal.takeThrough_append (not_lf hbody)
    (show body.length ≤ Line.reach size by omega) (.octet Line.lf :: tail)
  rw [hn, ← h] at htake
  obtain ⟨rest, hread, hrest⟩ := readLine_eq_of_signals htake
  refine ⟨rest, ?_, by simpa [Signal.takeThrough] using hrest⟩
  rw [hread]
  have hfits : ¬ size.toNat < body.length + 1 := by omega
  simp [Signal.takeThrough, Line.ofTaken, hfits]

/-- **A last line without LF is a line**, if it has an octet at all. -/
theorem readLine_of_unended (hbody : Line.lf ∉ body) (hsize : body.length ≤ size.toNat)
    (hne : body ≠ []) (h : s.signals = body.map .octet) :
    ∃ rest, s.readLine size = (.text (Line.textOf body), rest) ∧ rest.signals = [] := by
  have hreach := le_reach size
  have htake := Signal.takeThrough_append (not_lf hbody)
    (show body.length ≤ Line.reach size by omega) []
  have hend : ∀ n, Signal.takeThrough (· == Line.lf) n [] = ⟨[], [], false⟩ := by
    intro n
    cases n <;> rfl
  rw [List.append_nil, ← h, hend] at htake
  obtain ⟨rest, hread, hrest⟩ := readLine_eq_of_signals htake
  refine ⟨rest, ?_, hrest⟩
  rw [hread]
  have hfits : ¬ size.toNat < body.length := by omega
  simp [Line.ofTaken, hne, hfits]

/-- **Of a line longer than the bound one octet more than the bound is
taken**, and nothing behind it is looked at. -/
theorem readLine_of_excess {b : UInt8} (hbody : Line.lf ∉ body) (hsize : body.length = size.toNat)
    (hmax : size.toNat < UInt64.size - 1) (h : s.signals = body.map .octet ++ .octet b :: tail) :
    ∃ rest, s.readLine size = (.tooLong, rest) ∧ rest.signals = tail := by
  have hreach := reach_of_lt hmax
  have htake := Signal.takeThrough_append (not_lf hbody)
    (show body.length ≤ Line.reach size by omega) (.octet b :: tail)
  have hone : Line.reach size - body.length = 0 + 1 := by omega
  have hlast : Signal.takeThrough (· == Line.lf) (0 + 1) (.octet b :: tail) =
      ⟨[b], tail, false⟩ := by
    simp [Signal.takeThrough]
  rw [hone, hlast, ← h] at htake
  obtain ⟨rest, hread, hrest⟩ := readLine_eq_of_signals htake
  refine ⟨rest, ?_, hrest⟩
  rw [hread]
  have hlong : size.toNat < body.length + 1 := by omega
  simp [Line.ofTaken, hlong]

/-- **Of octets that go past the bound without LF one more than the bound is
taken**, and the others are left. -/
theorem readLine_of_octets {more : Octets} (hbody : Line.lf ∉ body)
    (hsize : size.toNat ≤ body.length) (hlong : size.toNat < (body ++ more).length)
    (hmax : size.toNat < UInt64.size - 1) (h : s.signals = (body ++ more).map .octet ++ tail) :
    ∃ rest, s.readLine size = (.tooLong, rest) ∧
      rest.signals = ((body ++ more).drop (size.toNat + 1)).map .octet ++ tail := by
  have hfirst : Line.lf ∉ (body ++ more).take size.toNat := by
    rw [List.take_append_of_le_length hsize]
    exact fun hmem => hbody (List.mem_of_mem_take hmem)
  have hlength : ((body ++ more).take size.toNat).length = size.toNat :=
    List.length_take_of_le (Nat.le_of_lt hlong)
  refine readLine_of_excess (b := (body ++ more)[size.toNat]) hfirst hlength hmax ?_
  rw [h, ← List.cons_append, ← List.map_cons, ← List.drop_eq_getElem_cons hlong,
    ← List.append_assoc, ← List.map_append, List.take_append_drop]

/-- **A failure within the bound loses the line** and is used up. -/
theorem readLine_of_failure (hbody : Line.lf ∉ body) (hsize : body.length ≤ size.toNat)
    (hmax : body.length < UInt64.size - 1) (h : s.signals = body.map .octet ++ .failure :: tail) :
    ∃ rest, s.readLine size = (.ended, rest) ∧ rest.signals = tail := by
  have hreach := le_reach size
  obtain ⟨n, hn⟩ : ∃ n, Line.reach size - body.length = n + 1 :=
    ⟨Line.reach size - body.length - 1, by unfold Line.reach; omega⟩
  have htake := Signal.takeThrough_append (not_lf hbody)
    (show body.length ≤ Line.reach size by omega) (.failure :: tail)
  rw [hn, ← h] at htake
  obtain ⟨rest, hread, hrest⟩ := readLine_eq_of_signals htake
  exact ⟨rest, by rw [hread]; rfl, by simpa [Signal.takeThrough] using hrest⟩

/-- At the end of the data there is no line. -/
theorem readLine_of_nil (size : UInt64) (h : s.signals = []) :
    ∃ rest, s.readLine size = (.ended, rest) ∧ rest.signals = [] := by
  have htake : Signal.takeThrough (· == Line.lf) (Line.reach size) s.signals = ⟨[], [], false⟩ := by
    rw [h]
    cases Line.reach size <;> rfl
  exact readLine_eq_of_signals htake

/-! ## Two bounds -/

/-- A read that stops short of its bound does not depend on the bound. -/
theorem takeThrough_add_of_lt {last : UInt8 → Bool} {n : Nat} (d : Nat)
    (hshort : (s.takeThrough last n).octets.length < n) :
    s.takeThrough last (n + d) = s.takeThrough last n := by
  fun_induction takeThrough last n s with
  | case1 s => exact absurd hshort (Nat.not_lt_zero _)
  | case2 n => rw [Nat.succ_add, takeThrough]
  | case3 n s => rw [Nat.succ_add, takeThrough]
  | case4 n s ih =>
      rw [Nat.succ_add, takeThrough, Nat.add_right_comm]
      exact ih hshort
  | case5 n s ih =>
      rw [Nat.succ_add, takeThrough, Nat.add_right_comm]
      exact ih hshort
  | case6 n b octets s hb => rw [Nat.succ_add, takeThrough, if_pos hb]
  | case7 n b octets s hb ih =>
      have hlater := ih (by simpa [Taken.cons] using hshort)
      rw [Nat.succ_add, takeThrough, if_neg hb, hlater]

/-- A read that meets its bound has not failed. -/
theorem takeThrough_failed_of_length {last : UInt8 → Bool} {n : Nat}
    (h : (s.takeThrough last n).octets.length = n) : (s.takeThrough last n).failed = false := by
  fun_induction takeThrough last n s <;> simp_all [Taken.cons]

/-- **Two bounds on one line.**  Either the line is the same under both, or
under the smaller one it is too long and under the greater one the read goes
on from there. -/
theorem readLine_of_le {small large : UInt64} (h : small ≤ large) (s : Source) :
    s.readLine large = s.readLine small ∨
      (s.readLine small).1 = .tooLong ∧
        (s.readLine large).2.signals <:+ (s.readLine small).2.signals := by
  have hle : small.toNat ≤ large.toNat := UInt64.le_iff_toNat_le.mp h
  have hreach : Line.reach small ≤ Line.reach large := by unfold Line.reach; omega
  by_cases hmet : (s.takeThrough (· == Line.lf) (Line.reach small)).octets.length
      < Line.reach small
  · left
    obtain ⟨d, hd⟩ := Nat.exists_eq_add_of_le hreach
    have htaken := takeThrough_add_of_lt d hmet
    rw [← hd] at htaken
    have hfits : ∀ size : UInt64, small.toNat ≤ size.toNat →
        ¬ size.toNat < (s.takeThrough (· == Line.lf) (Line.reach small)).octets.length := by
      intro size hsize
      have hbound : Line.reach small ≤ small.toNat + 1 := by unfold Line.reach; omega
      omega
    simp only [readLine, htaken, Line.ofTaken, hfits small (Nat.le_refl _), hfits large hle]
  · have hlen : (s.takeThrough (· == Line.lf) (Line.reach small)).octets.length =
        Line.reach small := by
      have hbound := takeThrough_length_le (· == Line.lf) (Line.reach small) s
      omega
    by_cases hmax : small.toNat < UInt64.size - 1
    · right
      have hlong := reach_of_lt hmax
      have hwhole := takeThrough_failed_of_length hlen
      have hsome : (s.takeThrough (· == Line.lf) (Line.reach small)).octets.isEmpty = false := by
        rw [List.isEmpty_eq_false_iff, ← List.length_pos_iff]
        omega
      refine ⟨?_, ?_⟩
      · have hexcess : small.toNat <
            (s.takeThrough (· == Line.lf) (Line.reach small)).octets.length := by omega
        simp [readLine, Line.ofTaken, hwhole, hsome, hexcess]
      · have hsuffix :=
          Signal.takeThrough_rest_suffix_of_le (· == Line.lf) hreach s.signals
        simp only [signals_takeThrough] at hsuffix
        exact hsuffix
    · left
      have hsame : small = large := by
        apply UInt64.toNat_inj.mp
        have hlarge := large.toNat_lt
        simp only [UInt64.size] at hmax
        omega
      rw [hsame]

end Source
end HttpWire
