import HttpWire.Proofs.Source.Reading

/-!
# Which events reading a line uses up

Signals say what a reader sees of a source.  Here a read is followed on the
events themselves, so that what is left is known down to the chunk that is cut
and the interruptions that are still to come.

All events before a point are passed over as long as no failure is among them,
no octet of them ends the piece, and the bound is not met
(`Source.takeThrough_append`).  What stands at that point then decides: an
octet that is the last one (`takeThrough_of_takesOff`), a failure
(`takeThrough_of_failed`) or the end of the data (`takeThrough_of_intact`).

For a line this gives one statement, `Source.readLine_consumption`, in which
LF, bound, failure and end are told apart by the octets that come before the
first failure, and by nothing else.
-/

namespace HttpWire

namespace Line

/-- Octets from which one final `b` has been taken away, if they end with it. -/
def Without (b : UInt8) (octets rest : Octets) : Prop :=
  octets = rest ++ [b] ∨ (octets = rest ∧ rest.getLast? ≠ some b)

/-- The text of a line: its octets without one final LF and then without one
final CR, read as UTF-8. -/
def IsTextOf (octets : Octets) (t : Text) : Prop :=
  ∃ unended bare, Without lf octets unended ∧ Without cr unended bare ∧ t = Utf8.decode bare

theorem without_dropFinal (b : UInt8) (octets : Octets) : Without b octets (dropFinal b octets) := by
  unfold dropFinal
  split
  · rename_i hlast
    obtain ⟨bare, rfl⟩ := List.getLast?_eq_some_iff.mp hlast
    rw [List.dropLast_concat]
    exact Or.inl rfl
  · rename_i hlast
    exact Or.inr ⟨rfl, hlast⟩

theorem isTextOf_textOf (octets : Octets) : IsTextOf octets (textOf octets) :=
  ⟨_, _, without_dropFinal lf octets, without_dropFinal cr _, rfl⟩

end Line

namespace Source

/-- The octets that come before the first failure, or before the end. -/
def unbroken : Source → Octets
  | [] => []
  | .data octets :: rest => octets ++ unbroken rest
  | .interrupted :: rest => unbroken rest
  | .failed :: _ => []

/-- Octets are taken off a source up to a point inside one of its chunks, or at
the end of that chunk.  No failure stands before that point, and everything
behind it is left as it was. -/
def TakesOff (s : Source) (octets : Octets) (rest : Source) : Prop :=
  ∃ (before : Source) (front back : Octets) (after : Source),
    s = before ++ .data (front ++ back) :: after ∧ Event.failed ∉ before ∧ front ≠ [] ∧
      octets = before.remaining ++ front ∧ rest = .data back :: after

variable {last : UInt8 → Bool} {limit : Nat} {b : UInt8} {body front more : Octets}
  {before s : Source} {size : UInt64}

/-- Events without failures have all their octets before the first failure. -/
theorem unbroken_append (hbefore : Event.failed ∉ before) (s : Source) :
    unbroken (before ++ s) = before.remaining ++ unbroken s := by
  induction before with
  | nil => rfl
  | cons e before ih =>
      have hrest := ih fun h => hbefore (List.mem_cons_of_mem _ h)
      cases e with
      | data octets => simp [unbroken, remaining, hrest]
      | interrupted => exact hrest
      | failed => exact absurd List.mem_cons_self hbefore

/-- Without failures all octets come before the first of them. -/
theorem unbroken_of_intact (h : Event.failed ∉ s) : s.unbroken = s.remaining := by
  have hwhole := unbroken_append h []
  simpa [unbroken] using hwhole

/-- With an event in front that is no failure, its octets are taken off first. -/
theorem TakesOff.cons {e : Event} {octets : Octets} {rest : Source} (h : s.TakesOff octets rest)
    (he : e ≠ .failed) : TakesOff (e :: s) (remaining [e] ++ octets) rest := by
  obtain ⟨before, front, back, after, rfl, hbefore, hfront, rfl, rfl⟩ := h
  refine ⟨e :: before, front, back, after, rfl, ?_, hfront, ?_, rfl⟩
  · exact List.not_mem_cons_of_ne_of_not_mem he.symm hbefore
  · cases e <;> simp [remaining]

/-- **Every octet before the first failure can be taken off**, together with
those before it. -/
theorem exists_takesOff (h : s.unbroken = body ++ b :: more) :
    ∃ rest, s.TakesOff (body ++ [b]) rest := by
  induction s generalizing body with
  | nil => simp [unbroken] at h
  | cons e s ih =>
      cases e with
      | failed => simp [unbroken] at h
      | interrupted =>
          obtain ⟨rest, hrest⟩ := ih h
          exact ⟨rest, hrest.cons (by simp)⟩
      | data octets =>
          have hlater : ∀ body' : Octets, unbroken s = body' ++ b :: more → body = octets ++ body' →
              ∃ rest, TakesOff (.data octets :: s) (body ++ [b]) rest := by
            intro body' hrest hbody
            obtain ⟨rest, htaken⟩ := ih hrest
            have hwhole := htaken.cons (e := .data octets) (by simp)
            exact ⟨rest, by simpa [remaining, hbody] using hwhole⟩
          -- The octet stands behind the chunk, right behind it, or inside.
          rcases List.append_eq_append_iff.mp h with ⟨body', hbody, hrest⟩ | ⟨behind, hcut, hrest⟩
          · exact hlater body' hrest hbody
          · cases behind with
            | nil => exact hlater [] hrest.symm (by simpa using hcut.symm)
            | cons c back =>
                obtain ⟨rfl, -⟩ := List.cons.inj hrest
                exact ⟨.data back :: s, [], body ++ [b], back, s, by simp [hcut],
                  List.not_mem_nil, by simp, rfl, rfl⟩

/-! ## What a read passes -/

/-- Octets of a chunk that do not end the piece are taken, and the read goes on
in the same chunk. -/
theorem takeThrough_front (hfront : ∀ c ∈ front, last c = false) (hlimit : front.length ≤ limit)
    (back : Octets) (after : Source) :
    takeThrough last limit (.data (front ++ back) :: after) =
      ⟨front ++ (takeThrough last (limit - front.length) (.data back :: after)).octets,
        (takeThrough last (limit - front.length) (.data back :: after)).rest,
        (takeThrough last (limit - front.length) (.data back :: after)).failed⟩ := by
  induction front generalizing limit with
  | nil => rfl
  | cons c front ih =>
      obtain ⟨n, rfl⟩ := Nat.exists_eq_add_one.mpr (Nat.lt_of_lt_of_le (Nat.succ_pos _) hlimit)
      have hc : last c = false := hfront c List.mem_cons_self
      have hrest := @ih n (fun d hd => hfront d (List.mem_cons_of_mem _ hd)) (by simpa using hlimit)
      simp [takeThrough, hc, hrest, Taken.cons]

/-- **Events without a failure are passed over**, if none of their octets ends
the piece and the bound lies behind them. -/
theorem takeThrough_append (hbefore : Event.failed ∉ before)
    (hgoes : ∀ c ∈ before.remaining, last c = false) (hlimit : before.remaining.length < limit)
    (s : Source) :
    takeThrough last limit (before ++ s) =
      ⟨before.remaining ++ (takeThrough last (limit - before.remaining.length) s).octets,
        (takeThrough last (limit - before.remaining.length) s).rest,
        (takeThrough last (limit - before.remaining.length) s).failed⟩ := by
  induction before generalizing limit with
  | nil => rfl
  | cons e before ih =>
      have hlater : Event.failed ∉ before := fun h => hbefore (List.mem_cons_of_mem _ h)
      cases e with
      | failed => exact absurd List.mem_cons_self hbefore
      | interrupted =>
          obtain ⟨n, rfl⟩ := Nat.exists_eq_add_one.mpr (Nat.zero_lt_of_lt hlimit)
          have hrest := ih hlater hgoes hlimit
          rw [List.cons_append, takeThrough, hrest]
          rfl
      | data octets =>
          simp only [remaining, List.length_append, List.mem_append] at hlimit hgoes ⊢
          obtain ⟨n, hn⟩ := Nat.exists_eq_add_one.mpr (show 0 < limit - octets.length by omega)
          have hfront := takeThrough_front (fun c hc => hgoes c (Or.inl hc))
            (show octets.length ≤ limit by omega) [] (before ++ s)
          have hrest := @ih (n + 1) hlater (fun c hc => hgoes c (Or.inr hc)) (by omega)
          rw [List.append_nil, hn, takeThrough, hrest] at hfront
          rw [List.cons_append, hfront, Nat.sub_add_eq, hn, List.append_assoc]

/-! ## What ends a read -/

/-- **A read ends behind the octet that ends the piece**, or behind the one with
which it meets its bound. -/
theorem takeThrough_of_takesOff {rest : Source} (h : s.TakesOff (body ++ [b]) rest)
    (hbody : ∀ c ∈ body, last c = false) (hlimit : body.length < limit)
    (hlast : last b = true ∨ body.length + 1 = limit) :
    s.takeThrough last limit = ⟨body ++ [b], rest, false⟩ := by
  obtain ⟨before, piece, back, after, rfl, hbefore, hpiece, hoctets, rfl⟩ := h
  obtain ⟨front, c, rfl⟩ := (List.eq_nil_or_concat piece).resolve_left hpiece
  rw [List.concat_eq_append, ← List.append_assoc] at hoctets
  obtain ⟨rfl, hb⟩ := List.append_inj' hoctets rfl
  obtain rfl : b = c := List.singleton_inj.mp hb
  rw [List.length_append] at hlimit hlast
  have hpassed := takeThrough_append hbefore
    (fun c hc => hbody c (List.mem_append_left _ hc)) (show before.remaining.length < limit by omega)
    (.data (front ++ b :: back) :: after)
  have hfront := takeThrough_front (fun c hc => hbody c (List.mem_append_right _ hc))
    (show front.length ≤ limit - before.remaining.length by omega) (b :: back) after
  obtain ⟨n, hn⟩ := Nat.exists_eq_add_one.mpr
    (show 0 < limit - before.remaining.length - front.length by omega)
  have hone : takeThrough last (n + 1) (.data (b :: back) :: after) =
      ⟨[b], .data back :: after, false⟩ := by
    rcases hlast with hlast | hbound
    · rw [takeThrough, if_pos hlast]
    · have hzero : n = 0 := by omega
      by_cases hb : last b = true <;> simp [takeThrough, hb, hzero, Taken.cons]
  rw [List.concat_eq_append, List.append_assoc, List.singleton_append, hpassed, hfront, hn, hone,
    List.append_assoc]

/-- **A failure within the bound ends a read** and is used up. -/
theorem takeThrough_of_failed (hbefore : Event.failed ∉ before)
    (hgoes : ∀ c ∈ before.remaining, last c = false) (hlimit : before.remaining.length < limit)
    (rest : Source) :
    takeThrough last limit (before ++ .failed :: rest) = ⟨before.remaining, rest, true⟩ := by
  obtain ⟨n, hn⟩ := Nat.exists_eq_add_one.mpr (Nat.sub_pos_of_lt hlimit)
  rw [takeThrough_append hbefore hgoes hlimit, hn, takeThrough, List.append_nil]

/-- **Without a failure a read within the bound goes to the end.** -/
theorem takeThrough_of_intact (hintact : Event.failed ∉ s)
    (hgoes : ∀ c ∈ s.remaining, last c = false) (hlimit : s.remaining.length < limit) :
    s.takeThrough last limit = ⟨s.remaining, [], false⟩ := by
  obtain ⟨n, hn⟩ := Nat.exists_eq_add_one.mpr (Nat.sub_pos_of_lt hlimit)
  have hwhole := takeThrough_append hintact hgoes hlimit []
  rwa [List.append_nil, hn, takeThrough, List.append_nil] at hwhole

/-! ## What is found of a line -/

/-- A line whose bound is not the greatest is judged by the octets up to one past
its bound. -/
private theorem readLine_of_taken {taken : Taken} (hsize : size.toNat < UInt64.size - 1)
    (h : s.takeThrough (· == Line.lf) (size.toNat + 1) = taken) :
    s.readLine size = (Line.ofTaken size taken, taken.rest) := by
  rw [readLine, reach_of_lt hsize, h]

/-- A line is read through its LF, and behind it nothing is touched. -/
theorem readLine_of_lf_within (hsize : size.toNat < UInt64.size - 1)
    (h : s.unbroken = body ++ Line.lf :: more) (hbody : Line.lf ∉ body)
    (hfits : body.length < size.toNat) :
    (s.readLine size).1 = .text (Line.textOf (body ++ [Line.lf])) ∧
      s.TakesOff (body ++ [Line.lf]) (s.readLine size).2 := by
  obtain ⟨rest, hrest⟩ := exists_takesOff h
  have htaken := takeThrough_of_takesOff hrest (not_lf hbody)
    (show body.length < size.toNat + 1 by omega) (Or.inl (beq_self_eq_true Line.lf))
  rw [readLine_of_taken hsize htaken]
  have hshort : ¬ size.toNat < body.length + 1 := by omega
  exact ⟨by simp [Line.ofTaken, hshort], hrest⟩

/-- Without LF within the bound one octet more than the bound is taken, if there
is one, and behind it nothing is touched. -/
theorem readLine_of_lf_beyond (hsize : size.toNat < UInt64.size - 1)
    (hnone : Line.lf ∉ s.unbroken.take size.toNat) (hlong : size.toNat < s.unbroken.length) :
    (s.readLine size).1 = .tooLong ∧
      s.TakesOff (s.unbroken.take (size.toNat + 1)) (s.readLine size).2 := by
  have hlength : (s.unbroken.take size.toNat).length = size.toNat :=
    List.length_take_of_le (Nat.le_of_lt hlong)
  have hcut : s.unbroken = s.unbroken.take size.toNat ++
      s.unbroken[size.toNat] :: s.unbroken.drop (size.toNat + 1) := by
    rw [← List.drop_eq_getElem_cons hlong, List.take_append_drop]
  obtain ⟨rest, hrest⟩ := exists_takesOff hcut
  have htaken := takeThrough_of_takesOff hrest (not_lf hnone) (show _ < size.toNat + 1 by omega)
    (Or.inr (by rw [hlength]))
  rw [List.take_append_getElem hlong] at htaken hrest
  rw [readLine_of_taken hsize htaken]
  have hexcess : (s.unbroken.take (size.toNat + 1)).length = size.toNat + 1 :=
    List.length_take_of_le hlong
  have hne := List.ne_nil_of_length_eq_add_one hexcess
  exact ⟨by simp [Line.ofTaken, hne, hexcess], hrest⟩

/-- A failure loses the octets before it and is used up with them. -/
theorem readLine_of_failed_within (hsize : size.toNat < UInt64.size - 1)
    (hbefore : Event.failed ∉ before) (hnone : Line.lf ∉ before.remaining)
    (hshort : before.remaining.length ≤ size.toNat) (rest : Source) :
    readLine size (before ++ .failed :: rest) = (.ended, rest) := by
  have htaken := takeThrough_of_failed hbefore (not_lf hnone) (Nat.lt_succ_of_le hshort) rest
  rw [readLine_of_taken hsize htaken]
  rfl

/-- At the end of the data what is left is a line, if it is anything. -/
theorem readLine_of_end_within (hsize : size.toNat < UInt64.size - 1)
    (hintact : Event.failed ∉ s) (hnone : Line.lf ∉ s.remaining)
    (hshort : s.remaining.length ≤ size.toNat) :
    s.readLine size = (if s.remaining = [] then .ended else .text (Line.textOf s.remaining), []) := by
  have htaken := takeThrough_of_intact hintact (not_lf hnone) (Nat.lt_succ_of_le hshort)
  rw [readLine_of_taken hsize htaken]
  by_cases hempty : s.remaining = [] <;> simp [Line.ofTaken, hempty, Nat.not_lt.mpr hshort]

/-- **What reading a line takes from a source**, whatever its events are.  With
an LF among the first `size` octets the line is taken through its LF; else, if
there are more octets than that, one more is taken and the line is too long.
In both cases no event behind the last octet is touched.  Else a failure is used
up together with the octets before it, and without a failure everything is taken
and makes up a last line, unless there was nothing. -/
theorem readLine_consumption (size : UInt64) (s : Source) (hsize : size.toNat < UInt64.size - 1) :
    let read := s.readLine size
    (∀ body more, s.unbroken = body ++ Line.lf :: more → Line.lf ∉ body →
        body.length < size.toNat →
      (∃ t, read.1 = .text t ∧ Line.IsTextOf (body ++ [Line.lf]) t) ∧
        s.TakesOff (body ++ [Line.lf]) read.2) ∧
    (Line.lf ∉ s.unbroken.take size.toNat → size.toNat < s.unbroken.length →
      read.1 = .tooLong ∧ s.TakesOff (s.unbroken.take (size.toNat + 1)) read.2) ∧
    (Line.lf ∉ s.unbroken.take size.toNat → s.unbroken.length ≤ size.toNat →
      (∀ before rest : Source, s = before ++ .failed :: rest → Event.failed ∉ before →
        before.remaining = s.unbroken ∧ read = (.ended, rest)) ∧
      (Event.failed ∉ s → read.2 = [] ∧
        if s.unbroken = [] then read.1 = .ended
        else ∃ t, read.1 = .text t ∧ Line.IsTextOf s.unbroken t)) := by
  intro read
  refine ⟨?_, readLine_of_lf_beyond hsize, ?_⟩
  · intro body more h hbody hfits
    obtain ⟨hline, hrest⟩ := readLine_of_lf_within hsize h hbody hfits
    exact ⟨⟨_, hline, Line.isTextOf_textOf _⟩, hrest⟩
  · intro hnone hshort
    rw [List.take_of_length_le hshort] at hnone
    constructor
    · intro before rest hs hbefore
      have hdata : before.remaining = s.unbroken := by
        rw [hs, unbroken_append hbefore, unbroken, List.append_nil]
      rw [← hdata] at hnone hshort
      refine ⟨hdata, ?_⟩
      have hread := readLine_of_failed_within hsize hbefore hnone hshort rest
      rwa [← hs] at hread
    · intro hintact
      rw [unbroken_of_intact hintact] at hnone hshort ⊢
      have hread : read = _ := readLine_of_end_within hsize hintact hnone hshort
      rw [hread]
      by_cases hempty : s.remaining = []
      · simp [hempty]
      · rw [if_neg hempty, if_neg hempty]
        exact ⟨rfl, _, rfl, Line.isTextOf_textOf _⟩

/-- A line of four octets, its CR and LF included, in two chunks and under two
bounds: through its LF under the greater one, and as one octet too many under
the smaller.  The failure behind it stays where it is. -/
theorem readLine_consumption_at_bound :
    let s : Source := [.data [97], .interrupted, .data [], .data [98, 13, 10], .failed, .data [99]]
    (4 : UInt64).toNat < UInt64.size - 1 ∧ (3 : UInt64).toNat < UInt64.size - 1 ∧
      (∃ t, (s.readLine 4).1 = .text t ∧ Line.IsTextOf [97, 98, 13, 10] t) ∧
      s.TakesOff [97, 98, 13, 10] (s.readLine 4).2 ∧
      (s.readLine 3).1 = .tooLong ∧ s.TakesOff [97, 98, 13, 10] (s.readLine 3).2 := by
  intro s
  have hfour : (4 : UInt64).toNat < UInt64.size - 1 := by decide
  have hthree : (3 : UInt64).toNat < UInt64.size - 1 := by decide
  obtain ⟨hline, hrest⟩ := (readLine_consumption 4 s hfour).1 [97, 98, 13] [] rfl (by decide)
    (by decide)
  obtain ⟨hlong, hleft⟩ := (readLine_consumption 3 s hthree).2.1 (by decide) (by decide)
  exact ⟨hfour, hthree, hline, hrest, hlong, hleft⟩

end Source
end HttpWire
