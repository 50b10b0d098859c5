import HttpWire.Proofs.Head.Written
import HttpWire.Proofs.Source.LineRead
import HttpWire.Proofs.Source.Lines

/-!
# Which fields a block can carry

A block gives back the fields it was written with exactly if each of them is
`FieldLine.Writable`: no `:` or LF in its name, no LF in its value, and a value
that is not empty.  If they are, the written block is read line by line
(`Source.readFieldsAfter_written`).  If one is not, the block may be read as
something else, and it cannot be read as these fields, because no block
whatever gives a field that is not writable (`Source.writable_of_mem`).

That holds of all data, ill-formed UTF-8 included.  A line holds no LF but its
last octet, and reading octets as text adds none (`Utf8.mem_of_mem_decode`);
its name ends before the first `:`, and a line without value gives no field.
-/

namespace HttpWire

/-- The text of a line has no LF, ended or not. -/
theorem Line.lf_not_mem_textOf {body : Octets} (hbody : lf ∉ body) :
    '\n' ∉ textOf body ∧ '\n' ∉ textOf (body ++ [lf]) := by
  have hdecode : ∀ octets : Octets, (∀ b ∈ octets, b ∈ body) → '\n' ∉ Utf8.decode octets := by
    intro octets hsub hmem
    exact hbody (hsub _ (Utf8.mem_of_mem_decode (c := '\n') (by decide) (by decide) hmem))
  refine ⟨hdecode _ ?_, hdecode _ ?_⟩
  · intro b hb
    exact mem_of_mem_dropFinal (mem_of_mem_dropFinal hb)
  · intro b hb
    rw [dropFinal_append] at hb
    exact mem_of_mem_dropFinal hb

/-- **No line that is read holds an LF.** -/
theorem ReadsLine.lf_not_mem_text {size : UInt64} {signals tail : List Signal} {t : Text}
    (h : ReadsLine size signals (.text t) tail) : '\n' ∉ t := by
  cases h with
  | whole hbody hsize => exact (Line.lf_not_mem_textOf hbody).2
  | last hbody hne hsize => exact (Line.lf_not_mem_textOf hbody).1
  | full hbody hlength hsize => exact (Line.lf_not_mem_textOf hbody).1

theorem mem_of_mem_dropSpace {c : Char} {t : Text} (h : c ∈ dropSpace t) : c ∈ t := by
  unfold dropSpace at h
  split at h
  · exact List.mem_cons_of_mem _ h
  · exact h

/-- **What a line gives as a field can be written as one.** -/
theorem FieldLine.writable_of_ofText {line name value : Text}
    (h : ofText line = .field name value) (hlf : '\n' ∉ line) : Writable (name, value) := by
  unfold ofText at h
  cases hcut : line.cutAt ':' with
  | none => simp [hcut] at h
  | some parts =>
      obtain ⟨before, behind⟩ := parts
      obtain ⟨rfl, hname⟩ := Text.cutAt_eq_some_iff.mp hcut
      rw [List.mem_append, List.mem_cons, not_or, not_or] at hlf
      obtain ⟨hbefore, -, hbehind⟩ := hlf
      simp only [hcut] at h
      split at h
      · exact absurd h (by simp)
      · rename_i hvalue
        obtain ⟨rfl, rfl⟩ := FieldLine.field.inj h
        exact ⟨⟨hname, hbefore⟩, hvalue, fun hmem => hbehind (mem_of_mem_dropSpace hmem)⟩

namespace Source

/-- A block that has writable fields gives writable fields. -/
theorem writable_readFieldsAfter [Hasher] (limits : Limits) (fields : Fields) (s : Source)
    (hfields : ∀ e ∈ fields.toList, FieldLine.Writable e) :
    ∀ e ∈ (s.readFieldsAfter limits fields).1.toList, FieldLine.Writable e := by
  fun_induction readFieldsAfter limits fields s with
  | case1 => exact hfields
  | case2 => exact hfields
  | case3 => exact hfields
  | case4 fields s line rest hread hkind ih => exact ih hfields
  | case5 => exact hfields
  | case6 fields s line rest hread name value hkind hroom ih =>
      have hline := readsLine limits.lineSize s
      rw [hread] at hline
      have hnew := FieldLine.writable_of_ofText hkind hline.lf_not_mem_text
      apply ih
      intro e he
      rw [FieldMap.toList_insert, List.mem_append, List.mem_singleton] at he
      rcases he with hold | rfl
      · exact hfields e hold
      · exact hnew

/-- **No block gives a field that cannot be written.** -/
theorem writable_of_mem [Hasher] {limits : Limits} {s : Source} {e : Entry}
    (h : e ∈ (s.readFields limits).1.toList) : FieldLine.Writable e :=
  writable_readFieldsAfter limits FieldMap.empty s nofun e h

/-- **Fields come back exactly if they can be written.**  A block of fields,
written in front of a body, is read as these fields if and only if all of them
are writable, and then the body is what is left.  Of whatever data, under
whatever limits, the fields that are read are writable. -/
theorem readFields_block_iff_writable [Hasher] :
    (∀ (entries : List Entry) (body : Octets) (s : Source), Event.failed ∉ s →
        s.remaining = FieldLine.block entries ++ body → s.remaining.length < UInt64.size - 1 →
        ((s.readFields Limits.unlimited).1.toList = entries ↔
            ∀ e ∈ entries, FieldLine.Writable e) ∧
          ((∀ e ∈ entries, FieldLine.Writable e) →
            (s.readFields Limits.unlimited).2.remaining = body)) ∧
      ∀ (limits : Limits) (s : Source), ∀ e ∈ (s.readFields limits).1.toList,
        FieldLine.Writable e := by
  refine ⟨?_, fun limits s e he => writable_of_mem he⟩
  intro entries body s hintact hdata hsize
  have hsignals : s.signals = (FieldLine.block entries).map .octet ++ body.map .octet := by
    rw [signals_of_intact hintact, hdata, List.map_append]
  have hgreatest : Limits.unlimited.lineSize.toNat = UInt64.size - 1 := rfl
  have hcounts : Limits.unlimited.fieldCount.toNat = UInt64.size - 1 := rfl
  have hblock := FieldLine.length_le_block entries
  rw [hdata, List.length_append] at hsize
  have hread : (∀ e ∈ entries, FieldLine.Writable e) →
      ∃ rest, s.readFields Limits.unlimited = (FieldMap.ofList entries, rest) ∧
        rest.signals = body.map .octet := by
    intro hwritable
    refine readFieldsAfter_written hwritable (by omega) ?_ hsignals
    rw [show (FieldMap.empty : Fields).size = 0 from rfl]
    omega
  refine ⟨⟨?_, ?_⟩, ?_⟩
  · intro hentries e he
    rw [← hentries] at he
    exact writable_of_mem he
  · intro hwritable
    obtain ⟨rest, hfields, -⟩ := hread hwritable
    rw [hfields, FieldMap.toList_ofList]
  · intro hwritable
    obtain ⟨rest, hfields, hrest⟩ := hread hwritable
    rw [hfields]
    exact remaining_of_signals hrest

/-- A value that begins with a space and ends with CR comes back, and one with
a whole line in it does not. -/
theorem readFields_block_iff_writable_line_in_value :
    let plain : List Entry := [(['A'], [' ', ':', '\r'])]
    let smuggling : List Entry := [(['A'], ['1', '\n', 'B', ':', '2'])]
    let data : Octets := FieldLine.block plain ++ [58, 10, 255]
    let s : Source := [.data (data.take 4), .interrupted, .data (data.drop 4)]
    let t : Source := [.data (FieldLine.block smuggling ++ [])]
    (Event.failed ∉ s ∧ s.remaining = data ∧ s.remaining.length < UInt64.size - 1 ∧
        (s.readFields Limits.unlimited).1.toList = plain ∧
        (s.readFields Limits.unlimited).2.remaining = [58, 10, 255]) ∧
      Event.failed ∉ t ∧ t.remaining.length < UInt64.size - 1 ∧
        (t.readFields Limits.unlimited).1.toList ≠ smuggling := by
  intro plain smuggling data s t
  have hs : Event.failed ∉ s := by decide
  have hdata : s.remaining = data := by decide
  have hsize : s.remaining.length < UInt64.size - 1 := by decide
  have ht : Event.failed ∉ t := by decide
  have hshort : t.remaining.length < UInt64.size - 1 := by decide
  obtain ⟨hplain, hleft⟩ := readFields_block_iff_writable.1 plain [58, 10, 255] s hs hdata hsize
  obtain ⟨hsmuggling, -⟩ := readFields_block_iff_writable.1 smuggling [] t ht (by decide) hshort
  have hwritable : ∀ e ∈ plain, FieldLine.Writable e := by decide
  have hnot : ¬ ∀ e ∈ smuggling, FieldLine.Writable e := by decide
  exact ⟨⟨hs, hdata, hsize, hplain.mpr hwritable, hleft hwritable⟩, ht, hshort,
    fun h => hnot (hsmuggling.mp h)⟩

end Source
end HttpWire
