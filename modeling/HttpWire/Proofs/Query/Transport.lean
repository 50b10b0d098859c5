import HttpWire.Proofs.Head.Written
import HttpWire.Proofs.Query.RoundTrip
import HttpWire.Proofs.Source.Lines

/-!
# Queries in request lines

A rendered query stands in a request line between the first `?` of the target
and the space behind the target.  Names are written as they are, so what would
break the line must not occur in them: a space or a line feed.  Values are
encoded.  Encoding takes every space away (`space_not_mem_render`) but leaves
line feeds, so only these are forbidden there (`lf_not_mem_render`).

All other marks are harmless.  A `?` in a name stands behind the first `?` of
the target, and a `/` in it stands before the second space, behind which the
`/` of the protocol is looked for.
-/

namespace HttpWire.Query

/-- An entry that a request line carries: its name is read back, and neither
the name nor the encoded value breaks the line. -/
structure Sendable (e : Entry) : Prop where
  clean : Clean e.1
  name : ' ' ∉ e.1 ∧ '\n' ∉ e.1
  value : '\n' ∉ e.2

instance (e : Entry) : Decidable (Sendable e) :=
  decidable_of_iff (Clean e.1 ∧ (' ' ∉ e.1 ∧ '\n' ∉ e.1) ∧ '\n' ∉ e.2)
    ⟨fun h => ⟨h.1, h.2.1, h.2.2⟩, fun h => ⟨h.1, h.2, h.3⟩⟩

/-- The request line that asks for a path with fields as its query. -/
def requestLine [Hasher] (method path : Text) (fields : Fields) (version : Text) : Text :=
  method ++ ' ' :: ((path ++ '?' :: render fields) ++
    ' ' :: (RequestLine.protocol ++ '/' :: version))

variable {c mark : Char} {parts : List Text}

/-! ## What stands in a rendered query -/

theorem mem_intercalate (h : c ∈ [mark].intercalate parts) :
    c = mark ∨ ∃ part ∈ parts, c ∈ part := by
  induction parts with
  | nil => simp [List.intercalate_nil] at h
  | cons part later ih =>
      cases later with
      | nil =>
          rw [List.intercalate_singleton] at h
          exact Or.inr ⟨part, List.mem_cons_self, h⟩
      | cons next later =>
          rw [List.intercalate_cons_cons, List.mem_append, List.mem_append,
            List.mem_singleton] at h
          rcases h with (hpart | hmark) | hlater
          · exact Or.inr ⟨part, List.mem_cons_self, hpart⟩
          · exact Or.inl hmark
          · rcases ih hlater with hmark | ⟨other, hother, hc⟩
            · exact Or.inl hmark
            · exact Or.inr ⟨other, List.mem_cons_of_mem _ hother, hc⟩

variable [Hasher] {m : Fields} {method path version : Text}

/-- What is no mark, and stands in no name and in no encoded value, does not
stand in a rendered query. -/
theorem not_mem_render (hamp : c ≠ '&') (heq : c ≠ '=')
    (hentries : ∀ e ∈ m.toList, c ∉ e.1 ∧ c ∉ Percent.encode e.2) : c ∉ render m := by
  intro hmem
  rcases mem_intercalate hmem with hmark | ⟨segment, hsegment, hc⟩
  · exact hamp hmark
  · obtain ⟨e, he, rfl⟩ := List.mem_map.mp hsegment
    obtain ⟨hname, hvalue⟩ := hentries e he
    rw [segmentOf, List.mem_append, List.mem_cons] at hc
    rcases hc with hin | hmark | hin
    · exact hname hin
    · exact heq hmark
    · exact hvalue hin

/-- A query that can be sent holds no space. -/
theorem space_not_mem_render (hm : ∀ e ∈ m.toList, Sendable e) : ' ' ∉ render m :=
  not_mem_render (by decide) (by decide) fun e he =>
    ⟨(hm e he).name.1, Percent.space_not_mem_encode e.2⟩

/-- A query that can be sent holds no LF. -/
theorem lf_not_mem_render (hm : ∀ e ∈ m.toList, Sendable e) : '\n' ∉ render m :=
  not_mem_render (by decide) (by decide) fun e he =>
    ⟨(hm e he).name.2, Percent.lf_not_mem_encode (hm e he).value⟩

/-! ## The request line -/

/-- Nor does the request line that carries it. -/
theorem lf_not_mem_requestLine (hm : ∀ e ∈ m.toList, Sendable e) (hmethod : '\n' ∉ method)
    (hpath : '\n' ∉ path) (hversion : '\n' ∉ version) :
    '\n' ∉ requestLine method path m version := by
  have hprotocol : '\n' ∉ RequestLine.protocol := by decide
  simp [requestLine, hmethod, hpath, lf_not_mem_render hm, hprotocol, hversion]

/-- **The parts of the request line are those it was made of.** -/
theorem accepts_requestLine (hm : ∀ e ∈ m.toList, Sendable e) (hmethod : ' ' ∉ method)
    (hpath : ' ' ∉ path ∧ '?' ∉ path) (hversion : version ≠ []) :
    RequestLine.Accepts (requestLine method path m version)
      ⟨method, path, render m, version⟩ := by
  have htarget : ' ' ∉ path ++ '?' :: render m := by
    simp [hpath.1, space_not_mem_render hm]
  exact ⟨_, ⟨rfl, hmethod, htarget⟩, .queried hpath.2, hversion⟩

end HttpWire.Query

namespace HttpWire.Source

/-- **Fields survive as the query of a request line.**  The request is read
whatever follows the line: its parts are the given ones, its query is the
rendered one and stands for the same fields, and its own fields are those of
the block behind the line. -/
theorem readRequest_of_query [Hasher] {n : Nat} (history : List (Fin n × Edit n)) (place : Fin n)
    {method path version : Text} {tail : List Signal} {s : Source} :
    let m : Fields := (Shelf.after history).get place
    (∀ e ∈ m.toList, Query.Sendable e) →
    (' ' ∉ method ∧ '\n' ∉ method) →
    (' ' ∉ path ∧ '?' ∉ path ∧ '\n' ∉ path) →
    (version ≠ [] ∧ '\n' ∉ version) →
    s.signals = (Line.written (Query.requestLine method path m version)).map .octet ++ tail →
    s.remaining.length < UInt64.size - 1 →
    ∃ (r : Request) (rest : Source), rest.signals = tail ∧
      s.readRequest .unlimited = (.ok r, (rest.readFields .unlimited).2) ∧
      r.line = ⟨method, path, Query.render m, version⟩ ∧
      r.fields = (rest.readFields .unlimited).1 ∧
      (r.queryFields == m) = true := by
  intro m hm hmethod hpath hversion hsignals htotal
  have hindexed : m.Indexed := Shelf.indexed_after history place
  have hlf := Query.lf_not_mem_requestLine hm hmethod.2 hpath.2.2 hversion.2
  have hparse := RequestLine.parse_of_accepts
    (Query.accepts_requestLine hm hmethod.1 ⟨hpath.1, hpath.2.1⟩ hversion.1)
  have hsize : (Line.written (Query.requestLine method path m version)).length ≤
      Limits.unlimited.lineSize.toNat := by
    have hprefix := (prefix_remaining_of_signals hsignals).length_le
    have hmost : Limits.unlimited.lineSize.toNat = UInt64.size - 1 := rfl
    omega
  obtain ⟨rest, hrest, hread⟩ := readHead_of_written hlf hparse hsize hsignals
  refine ⟨Request.ofLine ⟨method, path, Query.render m, version⟩ (rest.readFields .unlimited).1,
    rest, hrest, ?_, rfl, rfl, ?_⟩
  · rw [readRequest, hread]
    rfl
  · show (Query.parse (Query.render m) == m) = true
    rw [FieldMap.beq_iff_toList_eq (Query.indexed_parse _) hindexed]
    exact Query.toList_parse_render fun e he => (hm e he).clean

/-- A name with the marks of a target, a value with a mark, a space and a
character of two octets, and a field behind the line. -/
theorem readRequest_of_query_marks_in_name :
    let history : List (Fin 1 × Edit 1) := [(0, .insert ['a', '?', '/'] ['&', ' ', 'é'])]
    let m : Fields := (Shelf.after history).get 0
    let s : Source := [.data [71, 32, 47, 63, 97, 63, 47, 61, 37, 50, 54, 43, 195], .interrupted,
      .data [169, 32, 72, 84, 84, 80, 47, 49, 13, 10, 66, 58, 50, 13, 10, 13, 10, 67]]
    ∃ (r : Request) (rest : Source),
      (s.readRequest .unlimited).1 = .ok r ∧
      rest.signals = [66, 58, 50, 13, 10, 13, 10, 67].map .octet ∧
      r.line = ⟨['G'], ['/'], ['a', '?', '/', '=', '%', '2', '6', '+', 'é'], ['1']⟩ ∧
      r.fields = (rest.readFields .unlimited).1 ∧
      (r.queryFields == m) = true := by
  intro history m s
  have hm : ∀ e ∈ m.toList, Query.Sendable e := by decide
  have hsignals : s.signals =
      (Line.written (Query.requestLine ['G'] ['/'] m ['1'])).map .octet ++
        [66, 58, 50, 13, 10, 13, 10, 67].map .octet := by decide
  obtain ⟨r, rest, hrest, hread, hline, hfields, hquery⟩ :=
    readRequest_of_query history 0 hm (by decide) (by decide) (by decide) hsignals (by decide)
  exact ⟨r, rest, by rw [hread], hrest, hline, hfields, hquery⟩

end HttpWire.Source
