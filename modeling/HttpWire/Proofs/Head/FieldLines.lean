import HttpWire.Head.Block
import HttpWire.Proofs.Source.Lines

/-!
# Which lines make up a block

A block of fields is described here without a reader: by the lines of the
data, the name and the value that each line has, and the first line that stops
the block.  A line stops it if it is longer than the bound, has no `:`, or has
a value when the greatest number of lines with a value stand before it.

The main statement, `readFields_of_lines`, says that the reader follows this
description: it returns the lines with a value before the stopping line and
leaves what stands behind that line.
-/

namespace HttpWire

namespace Line

/-- The name on a line: its text up to the first `:`. -/
def nameOf (line : Octets) : Text :=
  (textOf line).takeWhile (· ≠ ':')

/-- The value on a line: its text behind the first `:`, without one leading
space. -/
def valueOf (line : Octets) : Text :=
  let behind := ((textOf line).dropWhile (· ≠ ':')).drop 1
  if behind.head? = some ' ' then behind.tail else behind

/-- Whether a line has a value. -/
def hasValue (line : Octets) : Bool :=
  !(valueOf line).isEmpty

/-- The fields on those of the lines that have a value. -/
def fieldsOf (lines : List Octets) : List Entry :=
  (lines.filter hasValue).map fun line => (nameOf line, valueOf line)

/-- Whether line `i` stops a block: it is too long, has no `:`, or is one line
with a value too many. -/
def StopsAt (limits : Limits) (lines : List Octets) (i : Nat) : Prop :=
  ∃ line, lines[i]? = some line ∧
    (limits.lineSize.toNat < line.length ∨ ':' ∉ textOf line ∨
      (hasValue line = true ∧ (lines.take i).countP hasValue = limits.fieldCount.toNat))

instance (limits : Limits) (lines : List Octets) (i : Nat) :
    Decidable (StopsAt limits lines i) :=
  match h : lines[i]? with
  | none => isFalse fun ⟨line, hline, _⟩ => by simp [h] at hline
  | some line =>
    decidable_of_iff
      (limits.lineSize.toNat < line.length ∨ ':' ∉ textOf line ∨
        (hasValue line = true ∧ (lines.take i).countP hasValue = limits.fieldCount.toNat))
      (by simp [StopsAt, h])

/-- Line `i` is the first that stops a block. -/
def FirstStop (limits : Limits) (lines : List Octets) (i : Nat) : Prop :=
  StopsAt limits lines i ∧ ∀ j, j < i → ¬ StopsAt limits lines j

/-- What is left of the stopping line itself: all but one octet more than the
bound, if it is too long, and otherwise nothing. -/
def overhang (limits : Limits) (line : Octets) : Octets :=
  if limits.lineSize.toNat < line.length then line.drop (limits.lineSize.toNat + 1) else []

/-- A result of reading is what the lines say. -/
structure IsBlock [Hasher] (limits : Limits) (lines : List Octets) (result : Fields × Source) :
    Prop where
  /-- Up to the stopping line, if there is one. -/
  stopped : ∀ i line, lines[i]? = some line → FirstStop limits lines i →
    result.1.toList = fieldsOf (lines.take i) ∧
      result.2.remaining = overhang limits line ++ (lines.drop (i + 1)).flatten
  /-- To the end of the data, if there is none. -/
  whole : (∀ i, ¬ StopsAt limits lines i) →
    result.1.toList = fieldsOf lines ∧ result.2.remaining = []

variable {limits : Limits} {line : Octets} {earlier later lines : List Octets}

/-- Where a line stops the block there is a first one that does. -/
theorem exists_firstStop {i : Nat} (h : StopsAt limits lines i) :
    ∃ k, FirstStop limits lines k := by
  induction i using Nat.strongRecOn with
  | ind i ih =>
      by_cases hsooner : ∃ j, j < i ∧ StopsAt limits lines j
      · obtain ⟨j, hj, hstop⟩ := hsooner
        exact ih j hj hstop
      · exact ⟨i, h, fun j hj hstop => hsooner ⟨j, hj, hstop⟩⟩

/-- There is but one first stopping line. -/
theorem FirstStop.unique {i k : Nat} (hi : FirstStop limits lines i)
    (hk : FirstStop limits lines k) : i = k := by
  rcases Nat.lt_trichotomy i k with h | h | h
  · exact absurd hi.1 (hk.2 i h)
  · exact h
  · exact absurd hk.1 (hi.2 k h)

/-- A block is known from its stopping line. -/
theorem IsBlock.of_firstStop [Hasher] {result : Fields × Source}
    (hstop : FirstStop limits (earlier ++ line :: later) earlier.length)
    (hfields : result.1.toList = fieldsOf earlier)
    (hrest : result.2.remaining = overhang limits line ++ later.flatten) :
    IsBlock limits (earlier ++ line :: later) result where
  stopped := by
    intro i line' hline hfirst
    obtain rfl := hfirst.unique hstop
    have hsame : line = line' := by simpa using hline
    subst hsame
    refine ⟨?_, ?_⟩
    · rw [List.take_left, hfields]
    · simpa using hrest
  whole := fun hnone => absurd hstop.1 (hnone _)

/-- How the line behind the earlier ones could stop the block. -/
theorem stopsAt_length (limits : Limits) (earlier : List Octets) (line : Octets)
    (later : List Octets) :
    StopsAt limits (earlier ++ line :: later) earlier.length ↔
      limits.lineSize.toNat < line.length ∨ ':' ∉ textOf line ∨
        (hasValue line = true ∧ earlier.countP hasValue = limits.fieldCount.toNat) := by
  simp [StopsAt]

/-- If the next line does not stop the block either, none of the lines through
it does. -/
theorem not_stopsAt_append_cons
    (hearlier : ∀ j, j < earlier.length → ¬ StopsAt limits (earlier ++ line :: later) j)
    (hline : ¬ StopsAt limits (earlier ++ line :: later) earlier.length) :
    ∀ j, j < (earlier ++ [line]).length → ¬ StopsAt limits (earlier ++ [line] ++ later) j := by
  intro j hj
  rw [List.length_append, List.length_singleton] at hj
  rw [List.append_assoc, List.singleton_append]
  rcases Nat.lt_or_ge j earlier.length with hlt | hge
  · exact hearlier j hlt
  · have hlast : j = earlier.length := by omega
    rw [hlast]
    exact hline

/-- One more line adds its field at the end, if it has a value. -/
theorem fieldsOf_append_singleton (earlier : List Octets) (line : Octets) :
    fieldsOf (earlier ++ [line]) =
      fieldsOf earlier ++ if hasValue line then [(nameOf line, valueOf line)] else [] := by
  unfold fieldsOf
  by_cases h : hasValue line = true <;> simp [h]

theorem fieldsOf_cons (line : Octets) (later : List Octets) :
    fieldsOf (line :: later) =
      (if hasValue line then [(nameOf line, valueOf line)] else []) ++ fieldsOf later := by
  unfold fieldsOf
  by_cases hvalue : hasValue line = true <;> simp [hvalue]

/-- **What a line is in a block** is seen from its name and its value. -/
theorem ofText_textOf (line : Octets) :
    FieldLine.ofText (textOf line) =
      if ':' ∉ textOf line then .outside
      else if hasValue line then .field (nameOf line) (valueOf line)
      else .blank := by
  unfold FieldLine.ofText hasValue valueOf nameOf
  cases hcut : (textOf line).cutAt ':' with
  | none => simp [Text.cutAt_eq_none_iff.mp hcut]
  | some parts =>
      obtain ⟨name, behind⟩ := parts
      obtain ⟨htext, hname⟩ := Text.cutAt_eq_some_iff.mp hcut
      have hplain : ∀ c ∈ name, decide (c ≠ ':') = true := by
        intro c hc
        exact decide_eq_true fun h => hname (h ▸ hc)
      have hmem : ':' ∈ textOf line := by simp [htext]
      have htake : (textOf line).takeWhile (· ≠ ':') = name := by
        rw [htext, List.takeWhile_append_of_pos hplain]
        simp
      have hdrop : (textOf line).dropWhile (· ≠ ':') = ':' :: behind := by
        rw [htext, List.dropWhile_append_of_pos hplain]
        simp
      rw [htake, hdrop]
      simp only [hmem, not_true_eq_false, if_false, List.drop_succ_cons, List.drop_zero]
      cases behind with
      | nil => rfl
      | cons c rest =>
          by_cases hc : c = ' '
          · subst hc
            cases rest <;> simp [dropSpace]
          · have hspace : dropSpace (c :: rest) = c :: rest := by
              unfold dropSpace
              split
              · rename_i h
                exact absurd (List.cons.inj h).1 hc
              · rfl
            simp [hspace, hc]

end Line

namespace Source

open Line

section

variable [Hasher] {limits : Limits} {s : Source} {line : Octets} {earlier later : List Octets}
  {fields : Fields}

/-- The number of fields behind a line that is passed. -/
theorem size_pass (fields : Fields) (line : Octets) :
    (if hasValue line then fields.insert (nameOf line) (valueOf line) else fields).size =
      fields.size + if hasValue line then 1 else 0 := by
  by_cases hvalue : hasValue line = true
  · simp [hvalue, FieldMap.size_eq_length]
  · simp [hvalue]

/-- A line that was read and stops the block is the last to be read. -/
theorem readFieldsAfter_of_text_stop {rest : Source}
    (hread : s.readLine limits.lineSize = (.text (textOf line), rest))
    (hstop : ':' ∉ textOf line ∨ hasValue line = true ∧ limits.fieldCount.toNat ≤ fields.size) :
    s.readFieldsAfter limits fields = (fields, rest) := by
  have hkind := ofText_textOf line
  rw [readFieldsAfter_eq, hread]
  by_cases hcolon : ':' ∈ textOf line
  · obtain ⟨hvalue, hfull⟩ := hstop.resolve_left (not_not_intro hcolon)
    rw [if_neg (not_not_intro hcolon), if_pos hvalue] at hkind
    simp only [hkind, if_pos hfull]
  · rw [if_pos hcolon] at hkind
    simp only [hkind]

/-- A line that was read and does not stop the block is passed, and is a field
if it has a value. -/
theorem readFieldsAfter_of_text_pass {rest : Source}
    (hread : s.readLine limits.lineSize = (.text (textOf line), rest))
    (hpass : ¬ (':' ∉ textOf line ∨
      hasValue line = true ∧ limits.fieldCount.toNat ≤ fields.size)) :
    s.readFieldsAfter limits fields = rest.readFieldsAfter limits
      (if hasValue line then fields.insert (nameOf line) (valueOf line) else fields) := by
  obtain ⟨hcolon, hroom⟩ := not_or.mp hpass
  have hkind := ofText_textOf line
  rw [if_neg hcolon] at hkind
  rw [readFieldsAfter_eq, hread]
  by_cases hvalue : hasValue line = true
  · have hbelow : ¬ limits.fieldCount.toNat ≤ fields.size := fun h => hroom ⟨hvalue, h⟩
    rw [if_pos hvalue] at hkind
    simp only [hkind, if_neg hbelow, if_pos hvalue]
  · rw [if_neg hvalue] at hkind
    simp only [hkind, if_neg hvalue]

/-- **A line that stops the block is the last to be read.**  No field comes of
it. -/
theorem readFieldsAfter_of_stop {octets : Octets} (hlines : split octets = line :: later)
    (hsignals : s.signals = (line :: later).flatten.map .octet)
    (hmax : line.length < UInt64.size)
    (hstop : limits.lineSize.toNat < line.length ∨ ':' ∉ textOf line ∨
      (hasValue line = true ∧ limits.fieldCount.toNat ≤ fields.size)) :
    ∃ rest, s.readFieldsAfter limits fields = (fields, rest) ∧
      rest.remaining = overhang limits line ++ later.flatten := by
  rcases Nat.lt_or_ge limits.lineSize.toNat line.length with hlong | hfits
  · obtain ⟨rest, hread, hrest⟩ := readLine_of_split_excess hsignals hlines hlong hmax
    refine ⟨rest, by rw [readFieldsAfter_eq, hread], ?_⟩
    rw [overhang, if_pos hlong]
    exact remaining_of_signals hrest
  · obtain ⟨rest, hread, hrest⟩ := readLine_of_split hsignals hlines hfits
    have hshort : ¬ limits.lineSize.toNat < line.length := Nat.not_lt.mpr hfits
    refine ⟨rest, readFieldsAfter_of_text_stop hread (hstop.resolve_left hshort), ?_⟩
    rw [overhang, if_neg hshort, List.nil_append]
    exact remaining_of_signals hrest

/-- **A line that does not stop the block is passed**, and is a field if it has
a value. -/
theorem readFieldsAfter_of_pass {octets : Octets} (hlines : split octets = line :: later)
    (hsignals : s.signals = (line :: later).flatten.map .octet)
    (hpass : ¬ (limits.lineSize.toNat < line.length ∨ ':' ∉ textOf line ∨
      (hasValue line = true ∧ limits.fieldCount.toNat ≤ fields.size))) :
    ∃ rest : Source, s.readFieldsAfter limits fields = rest.readFieldsAfter limits
        (if hasValue line then fields.insert (nameOf line) (valueOf line) else fields) ∧
      rest.signals = later.flatten.map .octet := by
  obtain ⟨hshort, hpass⟩ := not_or.mp hpass
  obtain ⟨rest, hread, hrest⟩ := readLine_of_split hsignals hlines (Nat.not_lt.mp hshort)
  exact ⟨rest, readFieldsAfter_of_text_pass hread hpass, hrest⟩

/-- **The reader follows the lines.**  The induction is on the lines still to
come; the earlier ones have not stopped the block and are known as fields. -/
theorem readFieldsAfter_isBlock (hlines : split later.flatten = later)
    (hsignals : s.signals = later.flatten.map .octet)
    (hsize : later.flatten.length < UInt64.size - 1)
    (hfields : fields.toList = fieldsOf earlier)
    (hcount : earlier.countP hasValue ≤ limits.fieldCount.toNat)
    (hearlier : ∀ j, j < earlier.length → ¬ StopsAt limits (earlier ++ later) j) :
    IsBlock limits (earlier ++ later) (s.readFieldsAfter limits fields) := by
  induction later generalizing s earlier fields with
  | nil =>
      obtain ⟨rest, hread, hrest⟩ := readLine_of_nil limits.lineSize hsignals
      rw [readFieldsAfter_eq, hread, List.append_nil]
      rw [List.append_nil] at hearlier
      refine ⟨?_, ?_⟩
      · intro i line hline hstop
        have hi := (List.getElem?_eq_some_iff.mp hline).1
        exact absurd hstop.1 (hearlier i hi)
      · intro _
        exact ⟨hfields, remaining_of_signals hrest⟩
  | cons line later ih =>
      have hsum : line.length + later.flatten.length < UInt64.size - 1 := by
        rw [← List.length_append, ← List.flatten_cons]
        exact hsize
      have hknown : fields.size = earlier.countP hasValue := by
        rw [FieldMap.size_eq_length, hfields, fieldsOf, List.length_map,
          List.countP_eq_length_filter]
      -- The count stands below the bound or at it, so "at" and "not below" are the same.
      have hfull : earlier.countP hasValue = limits.fieldCount.toNat ↔
          limits.fieldCount.toNat ≤ fields.size := by omega
      have hhere := stopsAt_length limits earlier line later
      rw [hfull] at hhere
      by_cases hstop : StopsAt limits (earlier ++ line :: later) earlier.length
      · obtain ⟨rest, hread, hrest⟩ :=
          readFieldsAfter_of_stop hlines hsignals (by omega) (hhere.mp hstop)
        rw [hread]
        exact IsBlock.of_firstStop ⟨hstop, hearlier⟩ hfields hrest
      · have hpass := fun h => hstop (hhere.mpr h)
        obtain ⟨rest, hread, hrest⟩ := readFieldsAfter_of_pass hlines hsignals hpass
        rw [hread, List.append_cons]
        apply ih (split_eq_cons hlines).1 hrest (by omega) ?_ ?_
          (not_stopsAt_append_cons hearlier hstop)
        · rw [fieldsOf_append_singleton, ← hfields]
          by_cases hvalue : hasValue line = true
          · rw [if_pos hvalue, if_pos hvalue, FieldMap.toList_insert]
          · rw [if_neg hvalue, if_neg hvalue, List.append_nil]
        · rw [List.countP_append, List.countP_singleton]
          by_cases hvalue : hasValue line = true
          · have hbelow : ¬ limits.fieldCount.toNat ≤ fields.size :=
              fun h => hpass (Or.inr (Or.inr ⟨hvalue, h⟩))
            rw [if_pos hvalue]
            omega
          · rw [if_neg hvalue]
            exact hcount

/-- **A block of fields is what its lines say.**  From data of less than
2^64-1 octets without failures the reader takes the fields on the lines before
the stopping line, in order, and leaves what stands behind that line; without
a stopping line it takes everything.  One of the two is always the case. -/
theorem readFields_of_lines (limits : Limits) (s : Source) (hintact : Event.failed ∉ s)
    (hsize : s.remaining.length < UInt64.size - 1) :
    ((∃ i, FirstStop limits (split s.remaining) i) ∨
        ∀ i, ¬ StopsAt limits (split s.remaining) i) ∧
      IsBlock limits (split s.remaining) (s.readFields limits) := by
  have hflat : (split s.remaining).flatten = s.remaining := split_flatten s.remaining
  have hsignals : s.signals = (split s.remaining).flatten.map .octet := by
    rw [hflat, signals_of_intact hintact]
  have hblock : IsBlock limits ([] ++ split s.remaining) (s.readFields limits) :=
    readFieldsAfter_isBlock (by rw [hflat]) hsignals (by rw [hflat]; exact hsize)
      rfl (Nat.zero_le _) (fun j hj => absurd hj (Nat.not_lt_zero j))
  refine ⟨?_, hblock⟩
  by_cases hstop : ∃ i, StopsAt limits (split s.remaining) i
  · obtain ⟨i, hi⟩ := hstop
    exact Or.inl (exists_firstStop hi)
  · exact Or.inr (not_exists.mp hstop)

end

/-- The first line just fits, the second has no value, the third is too long. -/
theorem readFields_of_lines_long_third :
    let s : Source := [.data [65, 58, 49, 13], .interrupted, .data [10, 66, 58, 10, 67],
      .data [58, 50, 50, 50, 50, 13, 10, 68]]
    Event.failed ∉ s ∧ s.remaining.length < UInt64.size - 1 ∧
      (s.readFields ⟨1, 5⟩).1.toList = [(['A'], ['1'])] ∧
        (s.readFields ⟨1, 5⟩).2.remaining = [13, 10, 68] := by
  intro s
  have hintact : Event.failed ∉ s := by decide
  have hsize : s.remaining.length < UInt64.size - 1 := by decide
  have hstop : FirstStop ⟨1, 5⟩ (split s.remaining) 2 := by
    refine ⟨by decide, ?_⟩
    decide
  obtain ⟨hfields, hrest⟩ := (readFields_of_lines ⟨1, 5⟩ s hintact hsize).2.stopped 2
    [67, 58, 50, 50, 50, 50, 13, 10] (by decide) hstop
  exact ⟨hintact, hsize, hfields, hrest⟩

end Source
end HttpWire
