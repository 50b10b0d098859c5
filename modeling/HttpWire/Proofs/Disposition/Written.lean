import HttpWire.Proofs.Disposition.Scan
import HttpWire.Proofs.Fields.Index

/-!
# Disposition values as they are written

A parameter is written as its bare name, or as its name, `=` and the value
between quotes.  Between two parameters stands a `;`, and behind that, as in
front of all, spaces and `;` may stand in any mixture.

A value that is written in this way is read back, whatever the quoted values
hold: inside the quotes only a quote is a mark (`toList_parse_written`).  The
induction is on the row of parameters.  A parameter is read the same way
whatever follows its `;` (`items_written_append`), and the last one ends with
the text.
-/

namespace HttpWire.Disposition

/-- A parameter: its name, and the value that stands between quotes, if it is
not a bare name. -/
structure Parameter where
  name : Text
  quoted : Option Text
  deriving DecidableEq, Repr

namespace Parameter

/-- The written form of a parameter. -/
def written (p : Parameter) : Text :=
  match p.quoted with
  | none => p.name
  | some value => p.name ++ '=' :: '"' :: (value ++ ['"'])

/-- The entry that a parameter is stored as. -/
def entry (p : Parameter) : Entry :=
  (p.name, p.quoted.getD [])

/-- The name and the value that a written parameter keeps apart. -/
structure Writable (p : Parameter) : Prop where
  name : IsName p.name
  quoted : ∀ value ∈ p.quoted, '"' ∉ value

instance (p : Parameter) : Decidable p.Writable :=
  decidable_of_iff (IsName p.name ∧ ∀ value ∈ p.quoted, '"' ∉ value)
    ⟨fun h => ⟨h.1, h.2⟩, fun h => ⟨h.1, h.2⟩⟩

/-- A written parameter with a value, with text behind it. -/
theorem written_quoted_append (name value after : Text) :
    written ⟨name, some value⟩ ++ after = name ++ '=' :: '"' :: (value ++ '"' :: after) := by
  simp [written]

end Parameter

/-- A row of parameters as it is written.  Each has beside it what stands
before it, behind the `;`. -/
def written (front : Text) (row : List (Text × Parameter)) : Text :=
  front ++ [';'].intercalate (row.map fun part => part.1 ++ part.2.written)

variable {front gap after : Text} {row : List (Text × Parameter)} {p : Parameter}

theorem IsGap.append (hfront : IsGap front) (hgap : IsGap gap) : IsGap (front ++ gap) := by
  intro c hc
  rcases List.mem_append.mp hc with hc | hc
  · exact hfront c hc
  · exact hgap c hc

/-- Nothing stands between the `=` and the opening quote. -/
theorem items_quoted_at_once {name value : Text} (hgap : IsGap gap) (hname : IsName name)
    (hvalue : '"' ∉ value) :
    items (gap ++ (name ++ '=' :: '"' :: (value ++ '"' :: after))) =
      (name, value) :: items after := by
  have hjunk : IsJunk [] := by decide
  exact items_quoted hgap hname hjunk hvalue

/-- **A parameter is read, and then what stands behind its `;`.** -/
theorem items_written_append (hgap : IsGap gap) (hp : p.Writable) :
    items (gap ++ (p.written ++ ';' :: after)) = p.entry :: items after := by
  obtain ⟨name, quoted⟩ := p
  cases quoted with
  | none => exact items_bare hgap hp.name
  | some value =>
      have hsemicolon : IsGap [';'] := by decide
      have hbehind : items (';' :: after) = items after := items_gap_append hsemicolon
      rw [Parameter.written_quoted_append, items_quoted_at_once hgap hp.name (hp.quoted value rfl),
        hbehind]
      rfl

/-- A written parameter at the end of the text is read back. -/
theorem items_written (hgap : IsGap gap) (hp : p.Writable) :
    items (gap ++ p.written) = [p.entry] := by
  obtain ⟨name, quoted⟩ := p
  cases quoted with
  | none => exact items_last hgap hp.name
  | some value =>
      have hnothing : IsGap [] := by decide
      have hitems : items (gap ++ (name ++ '=' :: '"' :: (value ++ ['"']))) =
          (name, value) :: items [] :=
        items_quoted_at_once hgap hp.name (hp.quoted value rfl)
      rw [items_gap hnothing] at hitems
      exact hitems

/-- The first parameter of a row, apart from those behind its `;`. -/
theorem written_cons_cons (part next : Text × Parameter) :
    written front (part :: next :: row) =
      (front ++ part.1) ++ (part.2.written ++ ';' :: written [] (next :: row)) := by
  simp [written, List.intercalate_cons_cons]

/-- A row is read parameter by parameter. -/
theorem items_row (hfront : IsGap front)
    (hrow : ∀ part ∈ row, IsGap part.1 ∧ part.2.Writable) :
    items (written front row) = row.map (·.2.entry) := by
  induction row generalizing front with
  | nil =>
      rw [written, List.map_nil, List.intercalate_nil, List.append_nil]
      exact items_gap hfront
  | cons part rest ih =>
      obtain ⟨hgap, hp⟩ := hrow part List.mem_cons_self
      have hfront := hfront.append hgap
      cases rest with
      | nil =>
          rw [written, List.map_singleton, List.intercalate_singleton, ← List.append_assoc]
          exact items_written hfront hp
      | cons next rest =>
          have hnothing : IsGap [] := by decide
          have hlater := ih hnothing fun part' hpart' => hrow part' (List.mem_cons_of_mem _ hpart')
          rw [written_cons_cons, items_written_append hfront hp, hlater]
          rfl

/-- **A written row is read back.**  Its entries are the parameters in their
order, and a look-up gives the value of the first parameter with that name. -/
theorem toList_parse_written [Hasher] (hfront : IsGap front)
    (hrow : ∀ part ∈ row, IsGap part.1 ∧ part.2.Writable) :
    (parse (written front row)).params.toList = row.map (·.2.entry) ∧
      ∀ name, (parse (written front row)).get? name =
        ((row.map (·.2.entry)).find? fun e => e.1.caselessEq name).map (·.2) := by
  have hentries : (parse (written front row)).params.toList = row.map (·.2.entry) := by
    rw [toList_parse, items_row hfront hrow]
  refine ⟨hentries, ?_⟩
  intro name
  have hindexed : (parse (written front row)).params.Indexed := FieldMap.indexed_ofList _
  rw [get?, hindexed.get?_eq fun _ _ => Text.caselessHash_eq_of_caselessEq, hentries]

/-- A bare name, a value of the marks that count outside quotes, an empty value
under a name that begins with `=`, and a name again in other letters; the row
ends with the text. -/
theorem toList_parse_written_marks_in_value :
    let row : List (Text × Parameter) :=
      [([], ⟨['f'], none⟩), ([' '], ⟨['n'], some [';', ' ', '=', '日', '\\']⟩),
        ([';', ' '], ⟨['=', '"'], some []⟩), ([], ⟨['N'], none⟩)]
    (IsGap [' ', ';'] ∧ ∀ part ∈ row, IsGap part.1 ∧ part.2.Writable) ∧
      (parse (written [' ', ';'] row)).params.toList =
        [(['f'], []), (['n'], [';', ' ', '=', '日', '\\']), (['=', '"'], []), (['N'], [])] ∧
      (parse (written [' ', ';'] row)).get? ['N'] = some [';', ' ', '=', '日', '\\'] := by
  intro row
  have hfront : IsGap [' ', ';'] := by decide
  have hrow : ∀ part ∈ row, IsGap part.1 ∧ part.2.Writable := by decide
  obtain ⟨hentries, hget⟩ := toList_parse_written hfront hrow
  refine ⟨⟨hfront, hrow⟩, hentries, ?_⟩
  rw [hget]
  decide

end HttpWire.Disposition
