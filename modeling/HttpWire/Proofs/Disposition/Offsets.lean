import HttpWire.Disposition.Basic

/-!
# The scan cuts between characters

The machine that scans a disposition value never looks at a character.  It
counts octets, and it keeps some of the counts: where a name began, where it
ended, where a value began.  Later the text is cut there, and a cut inside a
character has no result.

Every count that is kept is a place where the text can be cut (`Placed`).  One
is taken only beside one of the four marks, which are ASCII, or between
parameters, where the octet before was such a mark or there is none.  So one
step keeps the counts good and gives only spans that can be cut out
(`Phase.Placed.step`), and by induction so does the whole scan
(`cutsOut_of_mem_scanFrom`).
-/

namespace HttpWire.Disposition

open Text (IsCut Span)

variable {t : Text} {i : Nat} {b : UInt8} {phase : Phase} {found : Found}

/-- The offsets that a phase keeps are places where the text can be cut, and
the scan, now at offset `i`, has passed them in order. -/
def Phase.Placed (t : Text) (i : Nat) : Phase → Prop
  | .between => IsCut i t
  | .inName start => IsCut start t ∧ start < i
  | .beforeQuote label => label.CutsOut t ∧ label.start < label.stop
  | .inQuotes label start =>
    (label.CutsOut t ∧ label.start < label.stop) ∧ IsCut start t ∧ start ≤ i

/-- The spans of a parameter can be cut out of the text, and its name is not
empty. -/
structure Found.CutsOut (found : Found) (t : Text) : Prop where
  name : found.name.CutsOut t
  name_ne_nil : found.name.start < found.name.stop
  value : ∀ span ∈ found.value, span.CutsOut t

/-- **One octet keeps the offsets good.**  The offset `i` is kept as the start
of a name only between parameters, where the text can be cut anyway; as the end
of a name or of a value, and `i + 1` as the start of a value, only at a mark. -/
theorem Phase.Placed.step (hplaced : phase.Placed t i) (hoctet : (Utf8.encode t)[i]? = some b)
    (isLast : Bool) :
    (phase.step isLast i b).1.Placed t (i + 1) ∧
      ∀ found ∈ (phase.step isLast i b).2, found.CutsOut t := by
  have hmark : ∀ mark : UInt8, mark.toNat < 128 → b = mark → IsCut i t ∧ IsCut (i + 1) t := by
    intro mark hascii hb
    exact Text.isCut_of_ascii hoctet (hb ▸ hascii)
  cases phase with
  | between =>
      simp only [Phase.step]
      split
      · rename_i hseparator
        refine ⟨?_, by simp⟩
        rcases hseparator with hb | hb
        · exact (hmark space (by decide) hb).2
        · exact (hmark semicolon (by decide) hb).2
      · exact ⟨⟨hplaced, Nat.lt_succ_self i⟩, by simp⟩
  | inName start =>
      obtain ⟨hstart, hlt⟩ := hplaced
      simp only [Phase.step]
      split
      · rename_i hb
        obtain ⟨hstop, hnext⟩ := hmark semicolon (by decide) hb
        refine ⟨hnext, ?_⟩
        intro found hfound
        obtain rfl := Option.some.inj hfound
        exact ⟨⟨Nat.le_of_lt hlt, hstart, hstop⟩, hlt, by simp⟩
      · split
        · rename_i hb
          obtain ⟨hstop, -⟩ := hmark equals (by decide) hb
          exact ⟨⟨⟨Nat.le_of_lt hlt, hstart, hstop⟩, hlt⟩, by simp⟩
        · exact ⟨⟨hstart, Nat.lt_succ_of_lt hlt⟩, by simp⟩
  | beforeQuote label =>
      simp only [Phase.step]
      split
      · rename_i hb
        obtain ⟨-, hnext⟩ := hmark quote (by decide) hb.1
        exact ⟨⟨hplaced, hnext, Nat.le_refl _⟩, by simp⟩
      · split
        · rename_i hb
          exact ⟨(hmark semicolon (by decide) hb).2, by simp⟩
        · exact ⟨hplaced, by simp⟩
  | inQuotes label start =>
      obtain ⟨hlabel, hstart, hle⟩ := hplaced
      simp only [Phase.step]
      split
      · rename_i hb
        obtain ⟨hstop, hnext⟩ := hmark quote (by decide) hb
        refine ⟨hnext, ?_⟩
        intro found hfound
        obtain rfl := Option.some.inj hfound
        refine ⟨hlabel.1, hlabel.2, ?_⟩
        intro span hspan
        obtain rfl := Option.some.inj hspan
        exact ⟨hle, hstart, hstop⟩
      · exact ⟨⟨hlabel, hstart, Nat.le_succ_of_le hle⟩, by simp⟩

/-- The end of the text ends a name well. -/
theorem Phase.Placed.finish (hplaced : phase.Placed t (Utf8.encode t).length) :
    ∀ found ∈ phase.finish (Utf8.encode t).length, found.CutsOut t := by
  intro found hfound
  cases phase with
  | inName start =>
      obtain ⟨hstart, hlt⟩ := hplaced
      obtain rfl := Option.some.inj hfound
      have hstop : IsCut (Utf8.encode t).length t := by
        have h := Text.isCut_length t []
        rwa [List.append_nil] at h
      exact ⟨⟨Nat.le_of_lt hlt, hstart, hstop⟩, hlt, by simp⟩
  | between => exact absurd hfound (by simp [Phase.finish])
  | beforeQuote label => exact absurd hfound (by simp [Phase.finish])
  | inQuotes label start => exact absurd hfound (by simp [Phase.finish])

/-- **What is found from a good phase on can be cut out.**  The induction is on
the octets that are left; `done` are those before them. -/
theorem cutsOut_of_mem_scanFrom {done rest : Octets} (ht : Utf8.encode t = done ++ rest)
    (hplaced : phase.Placed t done.length) :
    ∀ found ∈ scanFrom done.length phase rest, found.CutsOut t := by
  induction rest generalizing done phase with
  | nil =>
      rw [List.append_nil] at ht
      intro found hfound
      rw [← ht] at hplaced hfound
      exact hplaced.finish found (Option.mem_toList.mp hfound)
  | cons b rest ih =>
      have hoctet : (Utf8.encode t)[done.length]? = some b := by simp [ht]
      obtain ⟨hnext, hgiven⟩ := hplaced.step hoctet rest.isEmpty
      have hlength : (done ++ [b]).length = done.length + 1 := List.length_append
      have hrest : Utf8.encode t = (done ++ [b]) ++ rest := by rw [ht, List.append_cons]
      rw [← hlength] at hnext
      have hlater := ih hrest hnext
      intro found hfound
      rcases List.mem_append.mp hfound with hfound | hfound
      · exact hgiven found (Option.mem_toList.mp hfound)
      · rw [← hlength] at hfound
        exact hlater found hfound

/-- All parameters that a scan finds can be cut out of the text. -/
theorem cutsOut_of_mem_scan : ∀ found ∈ scan (Utf8.encode t), found.CutsOut t := by
  have hstart : Phase.between.Placed t ([] : Octets).length :=
    ⟨Nat.zero_le _, by simp [Text.InsideChar]⟩
  exact cutsOut_of_mem_scanFrom rfl hstart

/-- A parameter whose spans can be cut out has its entry, under a name that is
not empty. -/
theorem Found.CutsOut.exists_entry (h : found.CutsOut t) :
    ∃ e, found.entry? t = some e ∧ e.1 ≠ [] := by
  obtain ⟨name, hname⟩ := Option.isSome_iff_exists.mp (Text.isSome_slice?_iff.mpr h.name)
  have hne : name ≠ [] := by
    intro hnil
    obtain ⟨before, after, -, hstart, hstop⟩ := Text.slice?_eq_some_iff.mp hname
    have hzero : (Utf8.encode name).length = 0 := by rw [hnil]; rfl
    have hlt := h.name_ne_nil
    omega
  cases hvalue : found.value with
  | none => exact ⟨(name, []), by simp [Found.entry?, hname, hvalue], hne⟩
  | some span =>
      have hspan := h.value span hvalue
      obtain ⟨value, hslice⟩ := Option.isSome_iff_exists.mp (Text.isSome_slice?_iff.mpr hspan)
      exact ⟨(name, value), by simp [Found.entry?, hname, hvalue, hslice], hne⟩

/-- Nothing is left out of a row in which everything has a result. -/
theorem map_eq_map_some_filterMap {α β : Type} {f : α → Option β} {l : List α}
    (h : ∀ a ∈ l, ∃ b, f a = some b) : l.map f = (l.filterMap f).map some := by
  induction l with
  | nil => rfl
  | cons a l ih =>
      obtain ⟨b, hb⟩ := h a List.mem_cons_self
      rw [List.map_cons, List.filterMap_cons_some hb, List.map_cons, hb,
        ih fun a' ha' => h a' (List.mem_cons_of_mem _ ha')]

/-- **No slice is out of range or ends inside a character.**  So every
parameter that the scan finds has its entry, the entries are these and no
others, and none of them has an empty name. -/
theorem slices_between_characters [Hasher] (t : Text) :
    (∀ found ∈ scan (Utf8.encode t), ∀ span, span = found.name ∨ found.value = some span →
        span.start ≤ span.stop ∧ span.stop ≤ (Utf8.encode t).length ∧
          ¬ Text.InsideChar span.start t ∧ ¬ Text.InsideChar span.stop t) ∧
      (scan (Utf8.encode t)).map (Found.entry? t) = (parse t).params.toList.map some ∧
      ∀ e ∈ (parse t).params.toList, e.1 ≠ [] := by
  have hcuts : ∀ found ∈ scan (Utf8.encode t), found.CutsOut t := cutsOut_of_mem_scan
  have hentries : (parse t).params.toList = entriesOf t := FieldMap.toList_ofList _
  rw [hentries]
  refine ⟨?_, ?_, ?_⟩
  · intro found hfound span hspan
    have hspan : span.CutsOut t := by
      rcases hspan with rfl | hvalue
      · exact (hcuts found hfound).name
      · exact (hcuts found hfound).value span hvalue
    exact ⟨hspan.ordered, hspan.stop_cut.1, hspan.start_cut.2, hspan.stop_cut.2⟩
  · apply map_eq_map_some_filterMap
    intro found hfound
    obtain ⟨e, he, -⟩ := (hcuts found hfound).exists_entry
    exact ⟨e, he⟩
  · intro e he
    obtain ⟨found, hfound, hentry⟩ := List.mem_filterMap.mp he
    obtain ⟨e', hentry', hne⟩ := (hcuts found hfound).exists_entry
    rw [hentry, Option.some.injEq] at hentry'
    rwa [hentry']

/-- A name of two octets, and a value of three that is passed over whole. -/
example :
    scan (Utf8.encode ['é', '=', '"', '日', '"', ';', 'x']) =
      [⟨⟨0, 2⟩, some ⟨4, 7⟩⟩, ⟨⟨9, 10⟩, none⟩] := by
  decide

end HttpWire.Disposition
