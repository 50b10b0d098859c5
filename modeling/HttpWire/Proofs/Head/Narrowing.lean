import HttpWire.Head.Request
import HttpWire.Head.Response
import HttpWire.Proofs.Source.Reading

/-!
# Narrower limits only cut short

Two readers of one source, one with smaller limits than the other, do the same
line by line up to the line at which the first of them stops.  From there on
the other can only add fields and use up more data, because a block never
loses a field it has and never gives data back.

The two part company in two ways only: a line that is too long under the
smaller bound (`Source.readLine_of_le`), and a field beyond the smaller number
of fields.  Everything else that ends a block ends it for both.
-/

namespace HttpWire

/-- Limits are ordered by both bounds. -/
instance : LE Limits :=
  ⟨fun small large => small.fieldCount ≤ large.fieldCount ∧ small.lineSize ≤ large.lineSize⟩

instance (small large : Limits) : Decidable (small ≤ large) :=
  inferInstanceAs (Decidable (_ ∧ _))

/-- There are no greater limits than no limits. -/
theorem Limits.le_unlimited (limits : Limits) : limits ≤ Limits.unlimited := by
  have hcount := limits.fieldCount.toNat_lt
  have hline := limits.lineSize.toNat_lt
  constructor
  · rw [UInt64.le_iff_toNat_le]
    change limits.fieldCount.toNat ≤ 18446744073709551615
    omega
  · rw [UInt64.le_iff_toNat_le]
    change limits.lineSize.toNat ≤ 18446744073709551615
    omega

/-- A reading of fields is another one cut short: its fields come first there,
and the other leaves the end of the data that it leaves. -/
def Truncates [Hasher] (short long : Fields × Source) : Prop :=
  short.1.toList <+: long.1.toList ∧ long.2.remaining <:+ short.2.remaining

namespace Source

variable {s t : Source} {small large : Limits}

/-- The data at the end of the signals are the end of the data. -/
theorem remaining_suffix_of_signals (h : s.signals <:+ t.signals) :
    s.remaining <:+ t.remaining := by
  rw [remaining_eq_filterMap, remaining_eq_filterMap]
  exact h.filterMap _

/-- A line that is not too long under the smaller bound is the same line under
the greater one. -/
theorem readLine_eq_of_le (h : small ≤ large) {line : Line} {rest : Source}
    (hread : s.readLine small.lineSize = (line, rest)) (hfits : line ≠ .tooLong) :
    s.readLine large.lineSize = (line, rest) := by
  rcases readLine_of_le h.2 s with hsame | ⟨hlong, -⟩
  · rw [hsame, hread]
  · rw [hread] at hlong
    exact absurd hlong hfits

section

variable [Hasher]

/-- A block keeps the fields it has. -/
theorem isPrefix_readFieldsAfter (limits : Limits) (fields : Fields) (s : Source) :
    fields.toList <+: (s.readFieldsAfter limits fields).1.toList := by
  fun_induction readFieldsAfter limits fields s with
  | case1 => exact List.prefix_rfl
  | case2 => exact List.prefix_rfl
  | case3 => exact List.prefix_rfl
  | case4 fields s line rest hread hkind ih => exact ih
  | case5 => exact List.prefix_rfl
  | case6 fields s line rest hread name value hkind hfull ih =>
      rw [FieldMap.toList_insert] at ih
      exact (List.prefix_append _ _).trans ih

/-- A block uses up its first line at least. -/
theorem isSuffix_readFieldsAfter (limits : Limits) (fields : Fields) (s : Source) :
    (s.readFieldsAfter limits fields).2.signals <:+
      (s.readLine limits.lineSize).2.signals := by
  fun_induction readFieldsAfter limits fields s with
  | case1 fields s rest hread =>
      simp only [hread, List.suffix_rfl]
  | case2 fields s rest hread =>
      simp only [hread, List.suffix_rfl]
  | case3 fields s line rest hread hkind =>
      simp only [hread, List.suffix_rfl]
  | case4 fields s line rest hread hkind ih =>
      rw [hread]
      exact ih.trans (readLine_suffix _ rest)
  | case5 fields s line rest hread name value hkind hfull =>
      simp only [hread, List.suffix_rfl]
  | case6 fields s line rest hread name value hkind hfull ih =>
      rw [hread]
      exact ih.trans (readLine_suffix _ rest)

/-- **Narrower limits only cut a block short.** -/
theorem readFieldsAfter_of_le (h : small ≤ large) (fields : Fields) (s : Source) :
    (s.readFieldsAfter small fields).1.toList <+: (s.readFieldsAfter large fields).1.toList ∧
      (s.readFieldsAfter large fields).2.signals <:+
        (s.readFieldsAfter small fields).2.signals := by
  fun_induction readFieldsAfter small fields s with
  | case1 fields s rest hread =>
      have hread' := readLine_eq_of_le h hread (by simp)
      rw [readFieldsAfter_eq large fields s, hread']
      exact ⟨List.prefix_rfl, List.suffix_rfl⟩
  | case2 fields s rest hread =>
      refine ⟨isPrefix_readFieldsAfter large fields s, ?_⟩
      have hlater := isSuffix_readFieldsAfter large fields s
      rcases readLine_of_le h.2 s with hsame | ⟨-, hsuffix⟩
      · rw [hsame, hread] at hlater
        exact hlater
      · rw [hread] at hsuffix
        exact hlater.trans hsuffix
  | case3 fields s line rest hread hkind =>
      have hread' := readLine_eq_of_le h hread (by simp)
      rw [readFieldsAfter_eq large fields s, hread']
      simp only [hkind]
      exact ⟨List.prefix_rfl, List.suffix_rfl⟩
  | case4 fields s line rest hread hkind ih =>
      have hread' := readLine_eq_of_le h hread (by simp)
      rw [readFieldsAfter_eq large fields s, hread']
      simp only [hkind]
      exact ih
  | case5 fields s line rest hread name value hkind hfull =>
      refine ⟨isPrefix_readFieldsAfter large fields s, ?_⟩
      have hread' := readLine_eq_of_le h hread (by simp)
      have hlater := isSuffix_readFieldsAfter large fields s
      rw [hread'] at hlater
      exact hlater
  | case6 fields s line rest hread name value hkind hfull ih =>
      have hread' := readLine_eq_of_le h hread (by simp)
      have hcount := UInt64.le_iff_toNat_le.mp h.1
      have hroom : ¬ large.fieldCount.toNat ≤ fields.size := by omega
      rw [readFieldsAfter_eq large fields s, hread']
      simp only [hkind, if_neg hroom]
      exact ih

/-- Narrower limits cut a block of fields short. -/
theorem readFields_truncates (h : small ≤ large) (s : Source) :
    Truncates (s.readFields small) (s.readFields large) := by
  obtain ⟨hfields, hrest⟩ := readFieldsAfter_of_le h FieldMap.empty s
  exact ⟨hfields, remaining_suffix_of_signals hrest⟩

/-- **A head that is read under narrower limits is read under wider ones**,
with the same start line and the fields cut short. -/
theorem readHead_ok_of_le {α : Type} {parse : Text → Except HeadError α} (h : small ≤ large)
    {start : α} {fields : Fields} (hread : (s.readHead parse small).1 = .ok (start, fields)) :
    ∃ fields', (s.readHead parse large).1 = .ok (start, fields') ∧
      Truncates (fields, (s.readHead parse small).2) (fields', (s.readHead parse large).2) := by
  cases hline : s.readLine small.lineSize with
  | mk line rest =>
      cases line with
      | ended => simp [readHead, hline] at hread
      | tooLong => simp [readHead, hline] at hread
      | text line =>
          have hline' := readLine_eq_of_le h hline (by simp)
          cases hparse : parse line with
          | error e => simp [readHead, hline, hparse] at hread
          | ok start' =>
              simp only [readHead, hline, hparse, Except.ok.injEq, Prod.mk.injEq] at hread
              obtain ⟨rfl, rfl⟩ := hread
              simp only [readHead, hline, hline', hparse]
              exact ⟨(rest.readFields large).1, rfl, readFields_truncates h rest⟩

/-- **A head in error under narrower limits is in error under wider ones**,
unless its start line is too long under the narrower ones. -/
theorem readHead_error_of_le {α : Type} {parse : Text → Except HeadError α} (h : small ≤ large)
    {e : HeadError} (hread : (s.readHead parse small).1 = .error e)
    (hfits : e ≠ .startLineTooLong) : (s.readHead parse large).1 = .error e := by
  cases hline : s.readLine small.lineSize with
  | mk line rest =>
      cases line with
      | tooLong =>
          simp only [readHead, hline, Except.error.injEq] at hread
          exact absurd hread.symm hfits
      | ended =>
          have hline' := readLine_eq_of_le h hline (by simp)
          simp only [readHead, hline] at hread
          simp only [readHead, hline']
          exact hread
      | text line =>
          have hline' := readLine_eq_of_le h hline (by simp)
          cases hparse : parse line with
          | error e' =>
              simp only [readHead, hline, hparse] at hread
              simp only [readHead, hline', hparse]
              exact hread
          | ok start => simp [readHead, hline, hparse] at hread

/-- A request under narrower limits is the same request cut short. -/
theorem readRequest_ok_of_le (h : small ≤ large) {r : Request}
    (hread : (s.readRequest small).1 = .ok r) :
    ∃ r', (s.readRequest large).1 = .ok r' ∧
      (r'.method = r.method ∧ r'.path = r.path ∧ r'.query = r.query ∧ r'.version = r.version) ∧
      Truncates (r.fields, (s.readRequest small).2) (r'.fields, (s.readRequest large).2) := by
  obtain ⟨head, hhead, rfl⟩ := HeadError.map_eq_ok_iff.mp hread
  obtain ⟨fields', hhead', hcut⟩ := readHead_ok_of_le h hhead
  refine ⟨Request.ofLine head.1 fields', ?_, ⟨rfl, rfl, rfl, rfl⟩, hcut⟩
  exact HeadError.map_eq_ok_iff.mpr ⟨_, hhead', rfl⟩

/-- A response under narrower limits is the same response cut short. -/
theorem readResponse_ok_of_le (h : small ≤ large) {r : Response}
    (hread : (s.readResponse small).1 = .ok r) :
    ∃ r', (s.readResponse large).1 = .ok r' ∧
      (r'.version = r.version ∧ r'.status = r.status) ∧
      Truncates (r.fields, (s.readResponse small).2) (r'.fields, (s.readResponse large).2) := by
  obtain ⟨head, hhead, rfl⟩ := HeadError.map_eq_ok_iff.mp hread
  obtain ⟨fields', hhead', hcut⟩ := readHead_ok_of_le h hhead
  refine ⟨Response.ofLine head.1 fields', ?_, ⟨rfl, rfl⟩, hcut⟩
  exact HeadError.map_eq_ok_iff.mpr ⟨_, hhead', rfl⟩

/-- **Limits only cut short, and the narrower the shorter.**  Under narrower
limits a block has the first of the fields it has under wider ones, and leaves
more of the data.  A head that is read is read under wider limits with the
same start line, its block again cut short; a head in error is in the same
error under wider limits, unless its start line was too long. -/
theorem reading_of_limits_le (s : Source) {small large : Limits} (h : small ≤ large) :
    large ≤ Limits.unlimited ∧
      Truncates (s.readFields small) (s.readFields large) ∧
      (∀ r, (s.readRequest small).1 = .ok r →
        ∃ r', (s.readRequest large).1 = .ok r' ∧
          (r'.method = r.method ∧ r'.path = r.path ∧ r'.query = r.query ∧
            r'.version = r.version) ∧
          Truncates (r.fields, (s.readRequest small).2) (r'.fields, (s.readRequest large).2)) ∧
      (∀ r, (s.readResponse small).1 = .ok r →
        ∃ r', (s.readResponse large).1 = .ok r' ∧
          (r'.version = r.version ∧ r'.status = r.status) ∧
          Truncates (r.fields, (s.readResponse small).2)
            (r'.fields, (s.readResponse large).2)) ∧
      (∀ e, (s.readRequest small).1 = .error e → e ≠ .startLineTooLong →
        (s.readRequest large).1 = .error e) ∧
      (∀ e, (s.readResponse small).1 = .error e → e ≠ .startLineTooLong →
        (s.readResponse large).1 = .error e) := by
  refine ⟨large.le_unlimited, readFields_truncates h s, ?_, ?_, ?_, ?_⟩
  · intro r hread
    exact readRequest_ok_of_le h hread
  · intro r hread
    exact readResponse_ok_of_le h hread
  · intro e hread hfits
    have hhead := readHead_error_of_le h (HeadError.map_eq_error_iff.mp hread) hfits
    exact HeadError.map_eq_error_iff.mpr hhead
  · intro e hread hfits
    have hhead := readHead_error_of_le h (HeadError.map_eq_error_iff.mp hread) hfits
    exact HeadError.map_eq_error_iff.mpr hhead

end

/-- Two fields under limits for one and for both, with a failure behind them. -/
theorem reading_of_limits_le_one_field_fewer :
    let s : Source := [.data [65, 58, 49, 10, 66], .data [58, 50, 10, 67, 58], .failed,
      .data [10, 68]]
    (⟨1, 4⟩ : Limits) ≤ ⟨2, 5⟩ ∧
      Truncates (s.readFields ⟨1, 4⟩) (s.readFields ⟨2, 5⟩) ∧
      ∀ e, (s.readRequest ⟨1, 4⟩).1 = .error e → e ≠ .startLineTooLong →
        (s.readRequest ⟨2, 5⟩).1 = .error e := by
  intro s
  have hle : (⟨1, 4⟩ : Limits) ≤ ⟨2, 5⟩ := by decide
  obtain ⟨-, hfields, -, -, herror, -⟩ := reading_of_limits_le s hle
  exact ⟨hle, hfields, herror⟩

end Source
end HttpWire
