import HttpWire.Fields.Shelf
import HttpWire.Text.Caseless.Lemmas
import Mathlib.Data.List.Sort

/-!
# The index agrees with the entries

A map holds its entries twice over: in the order in which they came, and by
position under the hash of their name.  The two agree when the positions under
each hash are, in increasing order, exactly those of the entries whose names
have that hash, and no other hash is in the index.  This is `Indexed`.

One insertion keeps it (`Indexed.insert`): the new position is greater than
all positions so far, and it goes where the new entry's hash says.  All other
changes are rows of insertions or begin with an empty map, so every map on a
shelf keeps it through every history (`Shelf.indexed_after`), also a map that
takes in a copy of itself.

The positions under a hash are then a function of the entries
(`Indexed.positions_eq`).  So a look-up finds what going through all entries
finds, whatever the hash, as long as names that differ in case only share it;
names that share a hash by accident are told apart by the comparison.  And two
maps are the same as soon as their entries are (`beq_iff_toList_eq`).
-/

namespace HttpWire

namespace FieldMap

variable {hash : Text → UInt64} {m a b : FieldMap hash}

/-- The index agrees with the entries. -/
structure Indexed (m : FieldMap hash) : Prop where
  /-- Positions under one hash increase. -/
  increasing : ∀ h, (m.positions h).Pairwise (· < ·)
  /-- They are those of the entries whose names have the hash. -/
  mem_positions : ∀ h i, i ∈ m.positions h ↔ ∃ e, m.entries[i]? = some e ∧ hash e.1 = h
  /-- Only the hashes of names are in the index. -/
  mem_index : ∀ h, h ∈ m.index ↔ ∃ e ∈ m.toList, hash e.1 = h

/-- The positions of the entries whose names have a hash, without the index. -/
def holding (m : FieldMap hash) (h : UInt64) : List Nat :=
  (List.range m.size).filter fun i => m.entries[i]?.any fun e => hash e.1 == h

/-- The values under a name, found by going through all entries. -/
def matching (m : FieldMap hash) (name : Text) : List Text :=
  (m.toList.filter fun e => e.1.caselessEq name).map (·.2)

/-! ## Changes keep the agreement -/

/-- A new entry gets its position under the hash of its name and under no other. -/
theorem positions_insert (m : FieldMap hash) (name value : Text) (h : UInt64) :
    (m.insert name value).positions h =
      m.positions h ++ if hash name = h then [m.size] else [] := by
  unfold positions insert
  rw [Std.HashMap.getD_alter]
  by_cases hname : hash name = h
  · subst hname
    simp [size, Std.HashMap.getD_eq_getD_getElem?]
  · simp [hname]

/-- Positions in the index are positions of entries. -/
theorem Indexed.lt_size (hm : m.Indexed) {h : UInt64} {i : Nat} (hi : i ∈ m.positions h) :
    i < m.size := by
  obtain ⟨e, he, -⟩ := (hm.mem_positions h i).mp hi
  obtain ⟨hlt, -⟩ := Array.getElem?_eq_some_iff.mp he
  exact hlt

/-- Where there are neither entries nor positions the index agrees. -/
theorem Indexed.of_nothing (hentries : m.entries = #[])
    (hindex : ∀ h : UInt64, m.index[h]? = none) : m.Indexed := by
  have hpositions : ∀ h, m.positions h = [] := by
    intro h
    rw [positions, Std.HashMap.getD_eq_getD_getElem?, hindex h]
    rfl
  refine ⟨?_, ?_, ?_⟩
  · intro h
    rw [hpositions h]
    exact List.Pairwise.nil
  · intro h i
    simp [hpositions h, hentries]
  · intro h
    rw [← Std.HashMap.isSome_getElem?_iff_mem, hindex h]
    simp [toList, hentries]

theorem indexed_empty : (empty : FieldMap hash).Indexed :=
  Indexed.of_nothing rfl fun _ => Std.HashMap.getElem?_empty

theorem indexed_withCapacity (capacity : Nat) :
    (withCapacity capacity : FieldMap hash).Indexed :=
  Indexed.of_nothing rfl fun _ => Std.HashMap.getElem?_emptyWithCapacity

theorem indexed_clear (m : FieldMap hash) : m.clear.Indexed :=
  Indexed.of_nothing rfl fun _ => Std.HashMap.getElem?_empty

/-- **One insertion keeps the index in agreement.**  The new position is behind
all others. -/
theorem Indexed.insert (hm : m.Indexed) (name value : Text) : (m.insert name value).Indexed := by
  refine ⟨?_, ?_, ?_⟩
  · intro h
    rw [positions_insert, List.pairwise_append]
    refine ⟨hm.increasing h, ?_, ?_⟩
    · by_cases hname : hash name = h <;> simp [hname]
    · intro i hi j hj
      have hlast : j = m.size := by
        by_cases hname : hash name = h
        · simpa [hname] using hj
        · simp [hname] at hj
      rw [hlast]
      exact hm.lt_size hi
  · intro h i
    rw [positions_insert, List.mem_append, hm.mem_positions h i]
    have hpush : (m.insert name value).entries[i]? =
        if i = m.size then some (name, value) else m.entries[i]? := Array.getElem?_push
    rw [hpush]
    by_cases hi : i = m.size
    · have hout : m.entries[i]? = none := Array.getElem?_eq_none (Nat.le_of_eq hi.symm)
      by_cases hname : hash name = h <;> simp [hi, hname]
      simp [← hi, hout]
    · by_cases hname : hash name = h <;> simp [hi, hname]
  · intro h
    have hsome : h ∈ (m.insert name value).index ↔ hash name = h ∨ h ∈ m.index := by
      unfold FieldMap.insert
      rw [Std.HashMap.mem_alter]
      by_cases hname : hash name = h <;> simp [hname]
    rw [hsome, hm.mem_index h, toList_insert]
    constructor
    · intro hfound
      rcases hfound with hname | ⟨e, he, hhash⟩
      · exact ⟨(name, value), by simp, hname⟩
      · exact ⟨e, List.mem_append_left _ he, hhash⟩
    · intro hfound
      obtain ⟨e, he, hhash⟩ := hfound
      rcases List.mem_append.mp he with hold | hnew
      · exact Or.inr ⟨e, hold, hhash⟩
      · rw [List.mem_singleton.mp hnew] at hhash
        exact Or.inl hhash

theorem Indexed.extend (hm : m.Indexed) (entries : List Entry) : (m.extend entries).Indexed := by
  induction entries generalizing m with
  | nil => exact hm
  | cons e rest ih => exact ih (hm.insert e.1 e.2)

theorem indexed_ofList (entries : List Entry) : (ofList entries : FieldMap hash).Indexed :=
  indexed_empty.extend entries

end FieldMap

namespace Shelf

open FieldMap

variable {hash : Text → UInt64} {n : Nat} {shelf : Shelf hash n}

/-- An edit keeps all indexes of a shelf in agreement. -/
theorem indexed_edit (hshelf : ∀ place, (shelf.get place).Indexed) (target : Fin n) (e : Edit n)
    (place : Fin n) : ((edit shelf target e).get place).Indexed := by
  have hget : (edit shelf target e).get place =
      if target = place then edited shelf target e else shelf.get place := getElem_edit _ _ _ _
  rw [hget]
  by_cases htarget : target = place
  · rw [if_pos htarget]
    cases e with
    | renew => exact indexed_empty
    | reserve capacity => exact indexed_withCapacity capacity
    | insert name value => exact (hshelf target).insert name value
    | extend entries => exact (hshelf target).extend entries
    | collect entries => exact indexed_ofList entries
    | clear => exact indexed_clear (shelf.get target)
    | copy source => exact hshelf source
    | append source => exact (hshelf target).extend _
  · rw [if_neg htarget]
    exact hshelf place

/-- **Every map that a history leaves is in agreement with its index.**  The
induction is on the history, from any shelf that is in agreement. -/
theorem indexed_after (history : List (Fin n × Edit n)) (place : Fin n) :
    ((after history : Shelf hash n).get place).Indexed := by
  have hrun : ∀ shelf : Shelf hash n, (∀ place, (shelf.get place).Indexed) →
      ∀ place,
        ((history.foldl (fun s change => edit s change.1 change.2) shelf).get place).Indexed := by
    induction history with
    | nil => exact fun _ hshelf => hshelf
    | cons change rest ih =>
        intro shelf hshelf
        exact ih _ (indexed_edit hshelf change.1 change.2)
  apply hrun empty
  intro place
  have hget : (empty : Shelf hash n).get place = FieldMap.empty := Vector.getElem_replicate _
  rw [hget]
  exact indexed_empty

end Shelf

namespace FieldMap

variable {hash : Text → UInt64} {m a b : FieldMap hash}

/-! ## The index is a function of the entries -/

/-- A position holds a hash if the name of its entry has that hash. -/
theorem mem_holding {h : UInt64} {i : Nat} :
    i ∈ m.holding h ↔ ∃ e, m.entries[i]? = some e ∧ hash e.1 = h := by
  simp only [holding, List.mem_filter, List.mem_range, Option.any_eq_true, beq_iff_eq]
  constructor
  · intro hi
    exact hi.2
  · intro hfound
    obtain ⟨e, he, hhash⟩ := hfound
    obtain ⟨hlt, -⟩ := Array.getElem?_eq_some_iff.mp he
    exact ⟨hlt, e, he, hhash⟩

/-- Two increasing rows of the same positions are the same row. -/
theorem Indexed.positions_eq (hm : m.Indexed) (h : UInt64) : m.positions h = m.holding h := by
  apply List.Pairwise.eq_of_mem_iff (hm.increasing h) (List.pairwise_lt_range.filter _)
  intro i
  rw [hm.mem_positions]
  exact mem_holding.symm

/-- Under a hash that the index knows it has all positions that hold the hash, in
order. -/
theorem Indexed.getElem?_index (hm : m.Indexed) (h : UInt64) :
    m.index[h]? = if h ∈ m.index then some (m.holding h).toArray else none := by
  have hpositions : (m.index[h]?.getD #[]).toList = m.holding h := by
    rw [← Std.HashMap.getD_eq_getD_getElem?]
    exact hm.positions_eq h
  by_cases hmem : h ∈ m.index
  · rw [if_pos hmem, ← hpositions, Std.HashMap.getElem?_eq_some_getElem hmem]
    rfl
  · rw [if_neg hmem]
    exact Std.HashMap.getElem?_eq_none hmem

/-- Maps with the same entries have the same positions under every hash. -/
theorem Indexed.index_equiv (ha : a.Indexed) (hb : b.Indexed) (hlist : a.toList = b.toList) :
    a.index.Equiv b.index := by
  have hentries : a.entries = b.entries := Array.toList_inj.mp hlist
  apply Std.HashMap.Equiv.of_forall_getElem?_eq
  intro h
  have hmem : h ∈ a.index ↔ h ∈ b.index := by
    rw [ha.mem_index, hb.mem_index, hlist]
  have hholding : a.holding h = b.holding h := by
    simp only [holding, size, hentries]
  rw [ha.getElem?_index, hb.getElem?_index, hholding]
  simp only [hmem]

/-- **Two maps in agreement with their indexes are the same if their entries
are.** -/
theorem beq_iff_toList_eq (ha : a.Indexed) (hb : b.Indexed) :
    (a == b) = true ↔ a.toList = b.toList := by
  have hbeq : (a == b) = (a.entries == b.entries && a.index == b.index) := rfl
  rw [hbeq, Bool.and_eq_true, beq_iff_eq]
  constructor
  · intro hboth
    exact congrArg Array.toList hboth.1
  · intro hlist
    exact ⟨Array.toList_inj.mp hlist, (ha.index_equiv hb hlist).beq⟩

/-! ## Look-ups -/

/-- Taking out the elements at the positions that satisfy a test is the test
itself. -/
theorem filterMap_filter_range {α : Type} (l : List α) (p : α → Bool) :
    ((List.range l.length).filter fun i => l[i]?.any p).filterMap (l[·]?) = l.filter p := by
  have hall : (List.range l.length).filterMap (l[·]?) = l := by
    have hmap : (List.range l.length).map (l[·]?) = l.map some := by
      apply List.ext_getElem
      · simp
      · intro i hi hi'
        simp at hi ⊢
    calc (List.range l.length).filterMap (l[·]?)
        = ((List.range l.length).map (l[·]?)).filterMap id := by rw [List.filterMap_map]; rfl
      _ = (l.map some).filterMap id := by rw [hmap]
      _ = l := by simp
  have hstep : ∀ i : Nat, (if l[i]?.any p = true then l[i]? else none) = l[i]?.filter p := by
    intro i
    cases l[i]? with
    | none => rfl
    | some x => by_cases hx : p x = true <;> simp [Option.filter, hx]
  rw [List.filterMap_filter]
  simp only [hstep]
  rw [← List.filter_filterMap, hall]

/-- **A look-up by hash finds what going through all entries finds.**  Names
with the hash that was asked for but another text are left out by the
comparison. -/
theorem Indexed.findAll_eq (hm : m.Indexed)
    (hfold : ∀ s t : Text, s.caselessEq t = true → hash s = hash t) (name : Text) :
    m.findAll name = m.matching name := by
  have hfound : (m.positions (hash name)).filterMap (m.entries[·]?) =
      m.toList.filter fun e => hash e.1 == hash name := by
    rw [hm.positions_eq]
    have h := filterMap_filter_range m.toList fun e => hash e.1 == hash name
    simpa [holding, toList, size] using h
  unfold findAll matching
  rw [hfound, List.filter_filter]
  congr 1
  apply List.filter_congr
  intro e _
  by_cases hname : e.1.caselessEq name = true
  · simp [hname, hfold _ _ hname]
  · simp [hname]

/-- A look-up for one value gives that of the first entry with the name. -/
theorem Indexed.get?_eq (hm : m.Indexed)
    (hfold : ∀ s t : Text, s.caselessEq t = true → hash s = hash t) (name : Text) :
    m.get? name = (m.toList.find? fun e => e.1.caselessEq name).map (·.2) := by
  rw [get?, hm.findAll_eq hfold, matching, List.head?_map, List.head?_filter]

/-- A value stands in the first entry with a name, in whatever case the name is
written there. -/
def IsFirst (m : FieldMap hash) (name value : Text) : Prop :=
  ∃ before own after, m.toList = before ++ (own, value) :: after ∧ own.caselessEq name = true ∧
    ∀ e ∈ before, e.1.caselessEq name = false

/-- **A look-up gives the value of the first entry with the name.** -/
theorem Indexed.get?_eq_some_iff (hm : m.Indexed)
    (hfold : ∀ s t : Text, s.caselessEq t = true → hash s = hash t) {name value : Text} :
    m.get? name = some value ↔ m.IsFirst name value := by
  rw [hm.get?_eq hfold, Option.map_eq_some_iff]
  constructor
  · rintro ⟨⟨own, value⟩, hfind, rfl⟩
    obtain ⟨hname, before, after, hlist, hbefore⟩ := List.find?_eq_some_iff_append.mp hfind
    refine ⟨before, own, after, hlist, hname, ?_⟩
    intro e he
    simpa using hbefore e he
  · rintro ⟨before, own, after, hlist, hname, hbefore⟩
    refine ⟨(own, value), List.find?_eq_some_iff_append.mpr ⟨hname, before, after, hlist, ?_⟩, rfl⟩
    intro e he
    simp [hbefore e he]

end FieldMap

namespace Shelf

variable {hash : Text → UInt64} {n : Nat}

/-- **Look-ups in every map that a history leaves.**  The positions under each
hash increase, are exactly those of the entries with that hash, and lie among
the entries; so the values found under a name are those of all entries with
that name, in order of insertion. -/
theorem lookups_after (hfold : ∀ s t : Text, s.caselessEq t = true → hash s = hash t)
    (history : List (Fin n × Edit n)) (place : Fin n) :
    let m := (after history : Shelf hash n).get place
    m.Indexed ∧ (∀ h, ∀ i ∈ m.positions h, i < m.size) ∧
      ∀ name, m.findAll name = m.matching name ∧
        m.get? name = (m.matching name).head? ∧
        m.contains name = !(m.matching name).isEmpty ∧
        m.count name = (m.matching name).length := by
  intro m
  have hm : m.Indexed := indexed_after history place
  refine ⟨hm, fun h i hi => hm.lt_size hi, ?_⟩
  intro name
  have hfind := hm.findAll_eq hfold name
  refine ⟨hfind, ?_, ?_, ?_⟩
  · rw [FieldMap.get?, hfind]
  · rw [FieldMap.contains, FieldMap.get?, hfind]
    cases m.matching name <;> rfl
  · rw [FieldMap.count, hfind]

/-- Two names under one hash in a map that takes in another one and then
itself, and a name in two cases under the hash of `Fields`. -/
theorem lookups_after_collision :
    let history : List (Fin 2 × Edit 2) :=
      [(0, .insert ['a'] ['1']), (1, .insert ['b'] ['2']), (0, .append 1), (1, .clear),
        (0, .append 0), (0, .insert ['A'] ['3'])]
    let one : FieldMap fun _ => 0 := (after history).get 0
    let fields : Fields := (after history).get 0
    (one.Indexed ∧ one.findAll ['A'] = [['1'], ['1'], ['3']] ∧ one.count ['B'] = 2) ∧
      (∀ s t : Text, s.caselessEq t = true → s.caselessHash = t.caselessHash) ∧
      fields.Indexed ∧ fields.findAll ['A'] = [['1'], ['1'], ['3']] ∧
      fields.contains ['c'] = false := by
  intro history one fields
  have hone := @lookups_after (fun _ => 0) 2 (fun _ _ _ => rfl) history 0
  have hfold : ∀ s t : Text, s.caselessEq t = true → s.caselessHash = t.caselessHash :=
    fun _ _ => Text.caselessHash_eq_of_caselessEq
  have hfields := lookups_after hfold history 0
  refine ⟨⟨hone.1, ?_, ?_⟩, hfold, hfields.1, ?_, ?_⟩
  · rw [(hone.2.2 ['A']).1]
    decide
  · rw [(hone.2.2 ['B']).2.2.2]
    decide
  · rw [(hfields.2.2 ['A']).1]
    decide
  · rw [(hfields.2.2 ['c']).2.2.1]
    decide

/-! ## Equality -/

/-- **Two histories leave the same map exactly if they leave the same
entries**, in the same order and letter by letter, although the indexes are
compared too.  So a map is the same as one made of its entries at once,
whatever was cleared, reserved or copied before. -/
theorem beq_after_iff {n₁ n₂ : Nat} (history₁ : List (Fin n₁ × Edit n₁)) (place₁ : Fin n₁)
    (history₂ : List (Fin n₂ × Edit n₂)) (place₂ : Fin n₂) :
    let a := (after history₁ : Shelf hash n₁).get place₁
    let b := (after history₂ : Shelf hash n₂).get place₂
    ((a == b) = true ↔ a.toList = b.toList) ∧ (a == FieldMap.ofList a.toList) = true := by
  intro a b
  have ha : a.Indexed := indexed_after history₁ place₁
  have hb : b.Indexed := indexed_after history₂ place₂
  refine ⟨FieldMap.beq_iff_toList_eq ha hb, ?_⟩
  rw [FieldMap.beq_iff_toList_eq ha (FieldMap.indexed_ofList a.toList), FieldMap.toList_ofList]

/-- A map that was filled, cleared and filled again is the same as a new one,
but not the same as one with a name in other letters; and two maps without
entries differ if one has a hash left over in its index. -/
example :
    let refilled : FieldMap fun _ => 0 := ((FieldMap.ofList [(['x'], [])]).clear).insert ['a'] ['1']
    let leftover : FieldMap fun _ => 0 := ⟨#[], Std.HashMap.ofList [(0, #[])]⟩
    (refilled == FieldMap.ofList [(['a'], ['1'])]) = true ∧
      (refilled == FieldMap.ofList [(['A'], ['1'])]) = false ∧
      (leftover == FieldMap.empty) = false := by
  decide +kernel

end Shelf
end HttpWire
