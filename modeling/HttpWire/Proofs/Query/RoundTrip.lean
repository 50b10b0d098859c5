import HttpWire.Proofs.Fields.Index
import HttpWire.Proofs.Percent.Canonical
import HttpWire.Proofs.Query.Joining

/-!
# Queries that are read back

Rendering writes names as they are, so a name must not hold what reading cuts
at: no `&`, which ends a segment, and no `=`, which ends a name.  And it must
not be empty, because a segment without a name counts for nothing.  Such names
are `Clean`.  Values are free: an encoded value holds no `&`, a `=` in it comes
behind the one that ends the name, and decoding undoes encoding.

With clean names each segment of a rendered query is read back by itself
(`toList_parse_segmentOf`), hence all of them are.  Without them nothing can
make up for it, since reading gives clean names only, whatever it reads
(`clean_of_mem_parse`).
-/

namespace HttpWire.Query

/-- A name that is read back as it is written. -/
def Clean (name : Text) : Prop :=
  name ≠ [] ∧ '&' ∉ name ∧ '=' ∉ name

instance (name : Text) : Decidable (Clean name) :=
  inferInstanceAs (Decidable (_ ∧ _))

variable {e : Entry} {segment : Text}

/-! ## Segments -/

/-- A segment gives a clean name or nothing. -/
theorem clean_of_entryOf (hsegment : '&' ∉ segment) (h : entryOf segment = some e) :
    Clean e.1 := by
  have hparts : ∃ name value, (segment.cutAt '=').getD (segment, []) = (name, value) ∧
      '&' ∉ name ∧ '=' ∉ name := by
    cases hcut : segment.cutAt '=' with
    | none => exact ⟨segment, [], rfl, hsegment, Text.cutAt_eq_none_iff.mp hcut⟩
    | some parts =>
        obtain ⟨name, value⟩ := parts
        obtain ⟨rfl, hname⟩ := Text.cutAt_eq_some_iff.mp hcut
        exact ⟨name, value, rfl, fun hmem => hsegment (List.mem_append_left _ hmem), hname⟩
  obtain ⟨name, value, hparts, hamp, heq⟩ := hparts
  simp only [entryOf, hparts] at h
  by_cases hempty : name = []
  · simp [hempty] at h
  · rw [if_neg (by simpa using hempty), Option.some.injEq] at h
    subst h
    exact ⟨hempty, hamp, heq⟩

/-- **Reading gives clean names only.** -/
theorem clean_of_mem_parse [Hasher] {query : Text} (h : e ∈ (parse query).toList) : Clean e.1 := by
  rw [parse, FieldMap.toList_ofList] at h
  obtain ⟨segment, hsegment, hentry⟩ := List.mem_filterMap.mp h
  exact clean_of_entryOf (not_mem_of_mem_segments hsegment) hentry

/-! ## Rendered queries -/

/-- An encoded value has no `&`. -/
theorem amp_not_mem_encode (t : Text) : '&' ∉ Percent.encode t := by
  intro hmem
  rcases Percent.mem_encode_cases hmem with ⟨-, -, hplain⟩ | hpiece
  · exact hplain (by decide)
  · exact absurd hpiece (by decide)

/-- **A segment with a clean name gives its entry back.** -/
theorem entryOf_segmentOf (h : Clean e.1) : entryOf (segmentOf e) = some e := by
  obtain ⟨hne, -, heq⟩ := h
  have hcut : (segmentOf e).cutAt '=' = some (e.1, Percent.encode e.2) := Text.cutAt_append heq
  have hname : ¬ e.1.isEmpty = true := by simpa using hne
  simp only [entryOf, hcut, Option.getD_some, if_neg hname, Percent.decode_encode]

/-- So a query of one such segment is read back. -/
theorem toList_parse_segmentOf [Hasher] (h : Clean e.1) : (parse (segmentOf e)).toList = [e] := by
  have hamp : '&' ∉ segmentOf e := by
    have hvalue := amp_not_mem_encode e.2
    simp [segmentOf, h.2.1, hvalue]
  rw [parse, FieldMap.toList_ofList, segments_of_not_mem hamp,
    List.filterMap_cons_some (entryOf_segmentOf h), List.filterMap_nil]

/-- **Fields with clean names are read back**, segment by segment. -/
theorem toList_parse_render [Hasher] {m : Fields} (hclean : ∀ e ∈ m.toList, Clean e.1) :
    (parse (render m)).toList = m.toList := by
  have hback : ∀ e ∈ m.toList, (parse (segmentOf e)).toList = [e] :=
    fun e he => toList_parse_segmentOf (hclean e he)
  calc (parse (render m)).toList
      = m.toList.flatMap fun e => (parse (segmentOf e)).toList := by
        rw [render, toList_parse_intercalate, List.flatMap_map]
    _ = m.toList.flatMap fun e => [e] := List.flatMap_congr hback
    _ = m.toList := List.flatMap_singleton' m.toList

/-- **Entries come back exactly if all names are clean.** -/
theorem toList_parse_render_iff [Hasher] {m : Fields} :
    (parse (render m)).toList = m.toList ↔ ∀ e ∈ m.toList, Clean e.1 := by
  constructor
  · intro h e he
    rw [← h] at he
    exact clean_of_mem_parse he
  · exact toList_parse_render

theorem indexed_parse [Hasher] (query : Text) : (parse query).Indexed :=
  FieldMap.indexed_ofList _

/-- **Fields are read back exactly if all their names are clean.**  This holds
of every map that a history leaves.  A query that was read is read back,
because names that were read are clean. -/
theorem parse_render_iff_clean [Hasher] :
    (∀ (n : Nat) (history : List (Fin n × Edit n)) (place : Fin n),
      let m : Fields := (Shelf.after history).get place
      ((parse (render m) == m) = true ↔ ∀ e ∈ m.toList, Clean e.1) ∧
        ((parse (render m)).toList = m.toList ↔ ∀ e ∈ m.toList, Clean e.1)) ∧
      ∀ query, (∀ e ∈ (parse query).toList, Clean e.1) ∧
        (parse (render (parse query)) == parse query) = true := by
  refine ⟨?_, ?_⟩
  · intro n history place m
    have hm : m.Indexed := Shelf.indexed_after history place
    refine ⟨?_, toList_parse_render_iff⟩
    rw [FieldMap.beq_iff_toList_eq (indexed_parse _) hm]
    exact toList_parse_render_iff
  · intro query
    have hclean : ∀ e ∈ (parse query).toList, Clean e.1 := fun _ => clean_of_mem_parse
    refine ⟨hclean, ?_⟩
    rw [FieldMap.beq_iff_toList_eq (indexed_parse _) (indexed_parse _)]
    exact toList_parse_render hclean

/-- A name with `&` is torn apart. -/
example : (parse (render (FieldMap.ofList [(['a', '&', 'b'], ['&'])]))).toList =
    [(['a'], []), (['b'], ['&'])] := by
  decide

end HttpWire.Query
