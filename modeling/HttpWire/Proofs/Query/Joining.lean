import HttpWire.Proofs.Text.Pieces
import HttpWire.Query

/-!
# Queries joined by `&`

Reading a query is a matter of its segments one by one: a segment ends at the
next `&`, and what it stands for depends on nothing outside it.  So a broken
escape at the end of one segment takes nothing from the next, octets that are
no UTF-8 are replaced within it, and a segment without a name leaves nothing.
Two queries with `&` between them are therefore read one behind the other,
whatever they are, and the maps agree with their indexes and all
(`parse_append_amp`).  The same holds of any number of queries
(`toList_parse_intercalate`).

Writing goes the same way (`render_append`), except that fields without
entries have no segment and need no `&`.
-/

namespace HttpWire.Query

/-- The segments of two queries joined by `&` are those of both. -/
theorem segments_append_amp (a b : Text) :
    segments (a ++ '&' :: b) = segments a ++ segments b :=
  List.splitOn_append_cons_self a b

/-- A query without `&` is one segment. -/
theorem segments_of_not_mem {query : Text} (h : '&' ∉ query) : segments query = [query] :=
  List.splitOn_eq_singleton h

/-- Segments hold no `&`. -/
theorem not_mem_of_mem_segments {query segment : Text} (h : segment ∈ segments query) :
    '&' ∉ segment :=
  (Text.mem_splitOn_iff.mp h).1

theorem intercalate_append {mark : Char} {first later : List Text} (hfirst : first ≠ [])
    (hlater : later ≠ []) :
    [mark].intercalate (first ++ later) =
      [mark].intercalate first ++ mark :: [mark].intercalate later := by
  induction first with
  | nil => exact absurd rfl hfirst
  | cons part first ih =>
      by_cases hlast : first = []
      · subst hlast
        simp [List.intercalate_cons_of_ne_nil hlater]
      · have hrest : first ++ later ≠ [] := by simp [hlast]
        rw [List.cons_append, List.intercalate_cons_of_ne_nil hrest,
          List.intercalate_cons_of_ne_nil hlast, ih hlast]
        simp

section

variable [Hasher] {m₁ m₂ : Fields}

/-- **Two queries joined by `&` are read one behind the other.** -/
theorem parse_append_amp (a b : Text) : parse (a ++ '&' :: b) = (parse a).append (parse b) := by
  unfold parse
  rw [segments_append_amp, List.filterMap_append, FieldMap.ofList_append]

/-- An empty query has no fields. -/
theorem parse_nil : parse [] = FieldMap.empty := by
  have hsegments : segments [] = [[]] := List.splitOn_nil '&'
  have hentry : entryOf [] = none := rfl
  rw [parse, hsegments, List.filterMap_cons_none hentry, List.filterMap_nil]
  rfl

/-- **Any number of queries joined by `&` are read one behind the other.** -/
theorem toList_parse_intercalate (queries : List Text) :
    (parse (['&'].intercalate queries)).toList = queries.flatMap fun q => (parse q).toList := by
  induction queries with
  | nil =>
      rw [List.intercalate_nil, parse_nil]
      rfl
  | cons first later ih =>
      cases later with
      | nil => simp [List.intercalate_singleton]
      | cons second later =>
          have hjoined : ['&'].intercalate (first :: second :: later) =
              first ++ '&' :: ['&'].intercalate (second :: later) := by
            simp [List.intercalate_cons_cons]
          rw [hjoined, parse_append_amp, FieldMap.toList_append, ih]
          rfl

/-- **Fields that are put together are written with `&` between them.** -/
theorem render_append (h₁ : m₁.isEmpty = false) (h₂ : m₂.isEmpty = false) :
    render (m₁.append m₂) = render m₁ ++ '&' :: render m₂ := by
  rw [FieldMap.isEmpty_eq, List.isEmpty_eq_false_iff] at h₁ h₂
  rw [render, FieldMap.toList_append, List.map_append]
  apply intercalate_append
  · simpa using h₁
  · simpa using h₂

/-- **`&` joins queries.**  Two queries with `&` between them give the entries
of the first and then those of the second.  Two maps that both have entries,
put together, are written as their two queries with `&` between them. -/
theorem amp_joins_queries :
    (∀ a b : Text, parse (a ++ '&' :: b) = (parse a).append (parse b) ∧
      (parse (a ++ '&' :: b)).toList = (parse a).toList ++ (parse b).toList) ∧
      ∀ m₁ m₂ : Fields, m₁.isEmpty = false → m₂.isEmpty = false →
        render (m₁.append m₂) = render m₁ ++ '&' :: render m₂ := by
  refine ⟨?_, fun m₁ m₂ => render_append⟩
  intro a b
  have hparse := parse_append_amp a b
  refine ⟨hparse, ?_⟩
  rw [hparse, FieldMap.toList_append]

end

/-- An escape that the next segment would complete, half a character, and a
name that is empty or holds `&`. -/
theorem amp_joins_queries_broken_escape :
    let a : Text := ['x', '=', '%', '4']
    let b : Text := ['1', '=', '%', 'C', '3', '&']
    let m₁ : Fields := FieldMap.ofList [(['k', '&'], ['&'])]
    let m₂ : Fields := FieldMap.ofList [([], [' ']), (['l'], [])]
    (parse (a ++ '&' :: b)).toList = (parse a).toList ++ (parse b).toList ∧
      (parse (a ++ '&' :: b)).toList = [(['x'], ['%', '4']), (['1'], [Utf8.replacement])] ∧
      (m₁.isEmpty = false ∧ m₂.isEmpty = false) ∧
      render (m₁.append m₂) =
        ['k', '&', '=', '%', '2', '6'] ++ '&' :: ['=', '+', '&', 'l', '='] := by
  intro a b m₁ m₂
  have hempty : m₁.isEmpty = false ∧ m₂.isEmpty = false := by decide
  have hjoined := (amp_joins_queries.1 a b).2
  have hwritten := amp_joins_queries.2 m₁ m₂ hempty.1 hempty.2
  refine ⟨hjoined, ?_, hempty, ?_⟩
  · rw [hjoined]
    decide
  · rw [hwritten]
    decide

end HttpWire.Query
