import HttpWire.Proofs.Head.RequestLine
import HttpWire.Proofs.Head.StatusLine
import HttpWire.Text.Utf8.Lemmas

/-!
# Heads as they are written

A head is written as a start line, one line `name: value` for each field and
an empty line, every line ended by CR and LF.  Here stand the written forms,
the conditions under which a part of a head can be written without being
mistaken for another, and what reading makes of the written form: the start
line, the fields one by one, and whatever follows the head untouched.

Nothing is lost at the end of a line.  Exactly one LF and one CR are taken
away, so a value may itself end with CR; and exactly one space behind the `:`
is, so a value may begin with one.
-/

namespace HttpWire

/-- Text as one line of data. -/
def Line.written (t : Text) : Octets :=
  Utf8.encode t ++ [Line.cr, Line.lf]

/-- A request line: method, target and protocol.  A target without query has
no `?`. -/
def RequestLine.written (r : RequestLine) : Text :=
  r.method ++ ' ' :: ((r.path ++ if r.query = [] then [] else '?' :: r.query) ++
    ' ' :: (RequestLine.protocol ++ '/' :: r.version))

/-- A status line: protocol and status. -/
def StatusLine.written (r : StatusLine) : Text :=
  (RequestLine.protocol ++ '/' :: r.version) ++ ' ' :: r.status

/-- The line of a field. -/
def FieldLine.written (e : Entry) : Text :=
  e.1 ++ ':' :: ' ' :: e.2

/-- The lines of a block of fields and the empty line behind it. -/
def FieldLine.block (entries : List Entry) : Octets :=
  entries.flatMap (fun e => Line.written (FieldLine.written e)) ++ Line.written []

/-- The parts of a request line that its written form keeps apart. -/
structure RequestLine.Writable (r : RequestLine) : Prop where
  method : ' ' ∉ r.method ∧ '\n' ∉ r.method
  path : ' ' ∉ r.path ∧ '?' ∉ r.path ∧ '\n' ∉ r.path
  query : ' ' ∉ r.query ∧ '\n' ∉ r.query
  version : r.version ≠ [] ∧ '\n' ∉ r.version

/-- The parts of a status line that its written form keeps apart. -/
structure StatusLine.Writable (r : StatusLine) : Prop where
  version : ' ' ∉ r.version ∧ '\n' ∉ r.version
  status : '\n' ∉ r.status

/-- The name and the value that a line keeps apart. -/
structure FieldLine.Writable (e : Entry) : Prop where
  name : ':' ∉ e.1 ∧ '\n' ∉ e.1
  value : e.2 ≠ [] ∧ '\n' ∉ e.2

instance (r : RequestLine) : Decidable r.Writable :=
  decidable_of_iff
    ((' ' ∉ r.method ∧ '\n' ∉ r.method) ∧ (' ' ∉ r.path ∧ '?' ∉ r.path ∧ '\n' ∉ r.path) ∧
      (' ' ∉ r.query ∧ '\n' ∉ r.query) ∧ r.version ≠ [] ∧ '\n' ∉ r.version)
    ⟨fun h => ⟨h.1, h.2.1, h.2.2.1, h.2.2.2⟩, fun h => ⟨h.1, h.2, h.3, h.4⟩⟩

instance (r : StatusLine) : Decidable r.Writable :=
  decidable_of_iff ((' ' ∉ r.version ∧ '\n' ∉ r.version) ∧ '\n' ∉ r.status)
    ⟨fun h => ⟨h.1, h.2⟩, fun h => ⟨h.1, h.2⟩⟩

instance (e : Entry) : Decidable (FieldLine.Writable e) :=
  decidable_of_iff ((':' ∉ e.1 ∧ '\n' ∉ e.1) ∧ e.2 ≠ [] ∧ '\n' ∉ e.2)
    ⟨fun h => ⟨h.1, h.2⟩, fun h => ⟨h.1, h.2⟩⟩

/-! ## Lines of text -/

/-- The end of a line can be put on and taken off. -/
theorem Line.textOf_written (t : Text) : Line.textOf (Line.written t) = t := by
  have hlf : Line.dropFinal Line.lf (Line.written t) = Utf8.encode t ++ [Line.cr] := by
    simp [Line.dropFinal, Line.written, List.dropLast_append_of_ne_nil]
  have hcr : Line.dropFinal Line.cr (Utf8.encode t ++ [Line.cr]) = Utf8.encode t := by
    simp [Line.dropFinal]
  rw [Line.textOf, hlf, hcr, Utf8.decode_encode]

/-- Text without line feeds has no LF when written. -/
theorem Line.lf_not_mem_encode {t : Text} (h : '\n' ∉ t) : Line.lf ∉ Utf8.encode t :=
  fun hmem => h ((Utf8.mem_encode_iff (c := '\n') (by decide) t).mp hmem)

/-- **A written line is read back**, and what follows it is left. -/
theorem Source.readLine_written {s : Source} {t : Text} {tail : List Signal} (size : UInt64)
    (hlf : '\n' ∉ t) (hsize : (Line.written t).length ≤ size.toNat)
    (h : s.signals = (Line.written t).map .octet ++ tail) :
    ∃ rest, s.readLine size = (.text t, rest) ∧ rest.signals = tail := by
  have hsplit : Line.written t = (Utf8.encode t ++ [Line.cr]) ++ [Line.lf] := by
    simp [Line.written]
  have hbody : Line.lf ∉ Utf8.encode t ++ [Line.cr] := by
    have hcr : Line.lf ≠ Line.cr := by decide
    simp [Line.lf_not_mem_encode hlf, hcr]
  have hlen : (Utf8.encode t ++ [Line.cr]).length < size.toNat := by
    rw [hsplit, List.length_append, List.length_singleton] at hsize
    omega
  obtain ⟨rest, hread, hrest⟩ := readLine_of_lf hbody hlen (by
    rw [h, hsplit, List.map_append, List.append_assoc]
    rfl)
  refine ⟨rest, ?_, hrest⟩
  rw [hread, ← hsplit, Line.textOf_written]

/-! ## Start lines -/

/-- **The line of a request is accepted as that request.** -/
theorem RequestLine.accepts_written {r : RequestLine} (h : r.Writable) : Accepts r.written r := by
  have hpath := h.path.1
  by_cases hq : r.query = []
  · have htarget : Target (r.path ++ if r.query = [] then [] else '?' :: r.query)
        r.path r.query := by
      rw [if_pos hq, List.append_nil, hq]
      exact .bare h.path.2.1
    exact ⟨_, ⟨rfl, h.method.1, by simpa [hq] using hpath⟩, htarget, h.version.1⟩
  · have hquery := h.query.1
    have htarget : Target (r.path ++ if r.query = [] then [] else '?' :: r.query)
        r.path r.query := by
      rw [if_neg hq]
      exact .queried h.path.2.1
    exact ⟨_, ⟨rfl, h.method.1, by simp [hq, hpath, hquery]⟩, htarget, h.version.1⟩

/-- A written request line holds no LF. -/
theorem RequestLine.lf_not_mem_written {r : RequestLine} (h : r.Writable) : '\n' ∉ r.written := by
  have hprotocol : '\n' ∉ protocol := by decide
  have hpath := h.path.2.2
  have hquery := h.query.2
  by_cases hq : r.query = []
  · simp [written, hq, h.method.2, hpath, hprotocol, h.version.2]
  · simp [written, hq, h.method.2, hpath, hquery, hprotocol, h.version.2]

/-- **The line of a status is accepted as that status.** -/
theorem StatusLine.accepts_written {r : StatusLine} (h : r.Writable) : Accepts r.written r := by
  refine ⟨RequestLine.protocol ++ ['/'], ?_, by decide, by decide, h.version.1⟩
  rw [written, ← List.append_cons]

/-- A written status line holds no LF. -/
theorem StatusLine.lf_not_mem_written {r : StatusLine} (h : r.Writable) : '\n' ∉ r.written := by
  have hprotocol : '\n' ∉ RequestLine.protocol := by decide
  simp [written, hprotocol, h.version.2, h.status]

/-! ## Blocks of fields -/

/-- **The line of a field is read back**; the one space behind the `:` is all
that is passed over. -/
theorem FieldLine.ofText_written {e : Entry} (h : FieldLine.Writable e) :
    FieldLine.ofText (FieldLine.written e) = .field e.1 e.2 := by
  obtain ⟨name, value⟩ := e
  rw [ofText, written, Text.cutAt_append h.name.1]
  simp only [dropSpace]
  cases value with
  | nil => exact absurd rfl h.value.1
  | cons c value => rfl

/-- The line of a field holds no LF. -/
theorem FieldLine.lf_not_mem_written {e : Entry} (h : FieldLine.Writable e) :
    '\n' ∉ FieldLine.written e := by
  simp [written, h.name.2, h.value.2]

theorem FieldLine.block_cons (e : Entry) (entries : List Entry) :
    FieldLine.block (e :: entries) =
      Line.written (FieldLine.written e) ++ FieldLine.block entries := by
  rw [block, List.flatMap_cons, List.append_assoc]
  rfl

/-- A block has at least as many octets as fields. -/
theorem FieldLine.length_le_block (entries : List Entry) :
    entries.length ≤ (FieldLine.block entries).length := by
  induction entries with
  | nil => exact Nat.zero_le _
  | cons e entries ih =>
      have hline : 2 ≤ (Line.written (FieldLine.written e)).length := by
        simp [Line.written]
      rw [block_cons, List.length_append, List.length_cons]
      omega

namespace Source

variable [Hasher] {s : Source} {limits : Limits} {tail : List Signal}

/-- **A written block is read back, and what follows it is left.** -/
theorem readFieldsAfter_written {entries : List Entry} {fields : Fields}
    (hentries : ∀ e ∈ entries, FieldLine.Writable e)
    (hsize : (FieldLine.block entries).length ≤ limits.lineSize.toNat)
    (hcount : fields.size + entries.length ≤ limits.fieldCount.toNat)
    (h : s.signals = (FieldLine.block entries).map .octet ++ tail) :
    ∃ rest, s.readFieldsAfter limits fields = (fields.extend entries, rest) ∧
      rest.signals = tail := by
  induction entries generalizing s fields with
  | nil =>
      obtain ⟨rest, hread, hrest⟩ := readLine_written limits.lineSize (by simp) hsize h
      refine ⟨rest, ?_, hrest⟩
      rw [readFieldsAfter_eq, hread]
      rfl
  | cons e entries ih =>
      have hwritable := hentries e List.mem_cons_self
      rw [FieldLine.block_cons, List.length_append] at hsize
      rw [FieldLine.block_cons, List.map_append, List.append_assoc] at h
      rw [List.length_cons] at hcount
      obtain ⟨rest, hread, hrest⟩ :=
        readLine_written limits.lineSize (FieldLine.lf_not_mem_written hwritable) (by omega) h
      have hgrown := fields.size_insert e.1 e.2
      obtain ⟨rest', hread', hrest'⟩ := @ih rest (fields.insert e.1 e.2)
        (fun d hd => hentries d (List.mem_cons_of_mem _ hd)) (by omega) (by omega) hrest
      refine ⟨rest', ?_, hrest'⟩
      have hroom : ¬ limits.fieldCount.toNat ≤ fields.size := by omega
      rw [readFieldsAfter_eq, hread]
      simp only [FieldLine.ofText_written hwritable, if_neg hroom]
      exact hread'

/-- **A written start line is read back**, and the block of fields is what
follows it. -/
theorem readHead_of_written {α : Type} {parse : Text → Except HeadError α} {line : Text} {start : α}
    (hlf : '\n' ∉ line) (hparse : parse line = .ok start)
    (hsize : (Line.written line).length ≤ limits.lineSize.toNat)
    (h : s.signals = (Line.written line).map .octet ++ tail) :
    ∃ rest : Source, rest.signals = tail ∧
      s.readHead parse limits =
        (.ok (start, (rest.readFields limits).1), (rest.readFields limits).2) := by
  obtain ⟨rest, hread, hrest⟩ := readLine_written limits.lineSize hlf hsize h
  refine ⟨rest, hrest, ?_⟩
  simp only [readHead, hread, hparse]

/-- **A written head is read back, and what follows it is left.** -/
theorem readHead_written {α : Type} {parse : Text → Except HeadError α} {line : Text} {start : α}
    {entries : List Entry} (hlf : '\n' ∉ line) (hparse : parse line = .ok start)
    (hentries : ∀ e ∈ entries, FieldLine.Writable e)
    (hsize : (Line.written line ++ FieldLine.block entries).length ≤ limits.lineSize.toNat)
    (hcount : entries.length ≤ limits.fieldCount.toNat)
    (h : s.signals = (Line.written line ++ FieldLine.block entries).map .octet ++ tail) :
    ∃ rest, s.readHead parse limits = (.ok (start, FieldMap.ofList entries), rest) ∧
      rest.signals = tail := by
  rw [List.length_append] at hsize
  rw [List.map_append, List.append_assoc] at h
  have hline : (Line.written line).length ≤ limits.lineSize.toNat := by omega
  obtain ⟨block, hblock, hread⟩ := readHead_of_written hlf hparse hline h
  have hempty : (FieldMap.empty : Fields).size + entries.length ≤ limits.fieldCount.toNat := by
    simpa [FieldMap.size_eq_length] using hcount
  obtain ⟨rest, hfields, hrest⟩ := readFieldsAfter_written hentries
    (show _ ≤ limits.lineSize.toNat by omega) hempty hblock
  refine ⟨rest, ?_, hrest⟩
  rw [hread, readFields, hfields]
  rfl

end Source
end HttpWire
