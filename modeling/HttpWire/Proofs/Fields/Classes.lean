import HttpWire.Proofs.Fields.Index
import Mathlib.Algebra.Ring.Nat
import Mathlib.Data.List.Dedup

/-!
# Names by class

Names that are equal without case make up a class.  A look-up does not see
which name of a class it is given, because the hash does not
(`FieldMap.selected_congr`), and names of two classes pick out no entry in
common, because an entry has one name and being equal without case is an
equivalence (`FieldMap.disjoint_selected`).  Neither needs the index to be
right.

With the index in agreement a look-up picks out all entries of a class
(`Indexed.mem_selected`).  So look-ups for one name of each class pick out every
entry exactly once, and their counts add up to the size of the map
(`Indexed.perm_range`).
-/

namespace HttpWire

namespace FieldMap

variable {hash : Text → UInt64} {m : FieldMap hash} {a b : Text} {names : List Text}

/-- The positions of the entries that a look-up picks out: those under the hash
of the name that the comparison keeps. -/
def selected (m : FieldMap hash) (name : Text) : List Nat :=
  (m.positions (hash name)).filter fun i => m.entries[i]?.any fun e => e.1.caselessEq name

/-- One name for each class of names in a map, and perhaps others: no two of one
class, and one for every entry. -/
structure Represents (m : FieldMap hash) (names : List Text) : Prop where
  /-- No two names are of one class. -/
  apart : names.Pairwise fun a b => a.caselessEq b = false
  /-- Every entry has a name of its class among them. -/
  covers : ∀ e ∈ m.toList, ∃ name ∈ names, e.1.caselessEq name = true

/-! ## What a look-up picks out -/

/-- The values found are those of the entries that are picked out. -/
theorem findAll_eq_selected (m : FieldMap hash) (name : Text) :
    m.findAll name = (m.selected name).filterMap fun i => m.entries[i]?.map (·.2) := by
  unfold findAll selected
  induction m.positions (hash name) with
  | nil => rfl
  | cons i rest ih =>
      cases hi : m.entries[i]? with
      | none => simpa [hi] using ih
      | some e => by_cases he : e.1.caselessEq name = true <;> simpa [hi, he] using ih

/-- Every position that is picked out holds an entry of the class of the name. -/
theorem exists_of_mem_selected {name : Text} {i : Nat} (hi : i ∈ m.selected name) :
    ∃ e, m.entries[i]? = some e ∧ e.1.caselessEq name = true := by
  have hany := (List.mem_filter.mp hi).2
  rwa [Option.any_eq_true] at hany

/-- The count of a name is the number of entries picked out for it. -/
theorem count_eq_length_selected (m : FieldMap hash) (name : Text) :
    m.count name = (m.selected name).length := by
  rw [count, findAll_eq_selected, List.filterMap_length_eq_length]
  intro i hi
  obtain ⟨e, he, -⟩ := exists_of_mem_selected hi
  rw [he]
  rfl

/-- **Names of one class pick out the same entries.** -/
theorem selected_congr (hfold : ∀ s t : Text, s.caselessEq t = true → hash s = hash t)
    (m : FieldMap hash) (h : a.caselessEq b = true) : m.selected a = m.selected b := by
  have hname : ∀ own : Text, own.caselessEq a = own.caselessEq b := by
    intro own
    rw [Bool.eq_iff_iff]
    constructor
    · intro ha
      exact Text.caselessEq_equivalence.trans ha h
    · intro hb
      exact Text.caselessEq_equivalence.trans hb (Text.caselessEq_equivalence.symm h)
  simp only [selected, hfold a b h, hname]

/-- **Names of two classes pick out no entry in common**, whatever their
hashes. -/
theorem disjoint_selected (m : FieldMap hash) (h : a.caselessEq b = false) :
    (m.selected a).Disjoint (m.selected b) := by
  intro i ha hb
  obtain ⟨e, he, hea⟩ := exists_of_mem_selected ha
  obtain ⟨e', he', heb⟩ := exists_of_mem_selected hb
  obtain rfl : e = e' := Option.some.inj (he.symm.trans he')
  have hab : a.caselessEq b = true :=
    Text.caselessEq_equivalence.trans (Text.caselessEq_equivalence.symm hea) heb
  rw [h] at hab
  exact Bool.false_ne_true hab

/-! ## What all look-ups together pick out -/

/-- No entry is picked out twice. -/
theorem Indexed.nodup_selected (hm : m.Indexed) (name : Text) : (m.selected name).Nodup :=
  ((hm.increasing (hash name)).filter _).imp Nat.ne_of_lt

/-- **All entries of a class are picked out**, and no others. -/
theorem Indexed.mem_selected (hm : m.Indexed)
    (hfold : ∀ s t : Text, s.caselessEq t = true → hash s = hash t) {name : Text} {i : Nat} :
    i ∈ m.selected name ↔ ∃ e, m.entries[i]? = some e ∧ e.1.caselessEq name = true := by
  constructor
  · exact exists_of_mem_selected
  · intro hfound
    obtain ⟨e, he, hname⟩ := hfound
    have hpicked : m.entries[i]?.any (fun e => e.1.caselessEq name) = true := by
      rw [he, Option.any_some, hname]
    have hplace : i ∈ m.positions (hash name) :=
      (hm.mem_positions _ i).mpr ⟨e, he, hfold _ _ hname⟩
    exact List.mem_filter.mpr ⟨hplace, hpicked⟩

/-- **Look-ups for one name of each class pick out every entry once.** -/
theorem Indexed.perm_range (hm : m.Indexed)
    (hfold : ∀ s t : Text, s.caselessEq t = true → hash s = hash t) (h : m.Represents names) :
    (names.flatMap m.selected).Perm (List.range m.size) := by
  have hnodup : (names.flatMap m.selected).Nodup := by
    rw [List.nodup_flatMap]
    refine ⟨fun name _ => hm.nodup_selected name, ?_⟩
    exact h.apart.imp fun hab => m.disjoint_selected hab
  rw [List.perm_ext_iff_of_nodup hnodup List.nodup_range]
  intro i
  rw [List.mem_flatMap, List.mem_range]
  constructor
  · intro hfound
    obtain ⟨name, -, hi⟩ := hfound
    exact hm.lt_size (List.mem_filter.mp hi).1
  · intro hi
    have he : m.entries[i]? = some m.entries[i] := Array.getElem?_eq_getElem hi
    obtain ⟨name, hmem, hname⟩ := h.covers m.entries[i] (Array.getElem_mem_toList hi)
    exact ⟨name, hmem, (hm.mem_selected hfold).mpr ⟨_, he, hname⟩⟩

/-- The counts of one name of each class add up to the number of entries. -/
theorem Indexed.sum_count (hm : m.Indexed)
    (hfold : ∀ s t : Text, s.caselessEq t = true → hash s = hash t) (h : m.Represents names) :
    (names.map m.count).sum = m.size := by
  calc (names.map m.count).sum
      = (names.map fun name => (m.selected name).length).sum := by
        rw [List.map_congr_left fun name _ => count_eq_length_selected m name]
    _ = (names.flatMap m.selected).length := List.length_flatMap.symm
    _ = m.size := by rw [(hm.perm_range hfold h).length_eq, List.length_range]

/-- The lowered names of a map represent their classes. -/
theorem represents_lowered (m : FieldMap hash) :
    m.Represents (m.toList.map fun e => e.1.map Char.toLower).dedup where
  apart := by
    have hkept : ∀ t ∈ (m.toList.map fun e => e.1.map Char.toLower).dedup,
        t.map Char.toLower = t := by
      intro t ht
      obtain ⟨e, -, rfl⟩ := List.mem_map.mp (List.mem_dedup.mp ht)
      exact (Text.caselessEq_iff.mp (Text.caselessEq_lowered e.1)).symm
    refine (List.nodup_dedup _).imp_of_mem ?_
    intro a b ha hb hne
    rw [Bool.eq_false_iff, ne_eq, Text.caselessEq_iff, hkept a ha, hkept b hb]
    exact hne
  covers e he :=
    ⟨e.1.map Char.toLower, List.mem_dedup.mpr (List.mem_map_of_mem he),
      Text.caselessEq_lowered e.1⟩

/-- Look-ups go by the class of the name. -/
structure ByClass (m : FieldMap hash) : Prop where
  /-- Names of one class find the same. -/
  same : ∀ a b, a.caselessEq b = true →
    m.get? a = m.get? b ∧ m.findAll a = m.findAll b ∧ m.contains a = m.contains b ∧
      m.count a = m.count b
  /-- What is found are the values of the entries picked out. -/
  found : ∀ name, m.findAll name = (m.selected name).filterMap fun i => m.entries[i]?.map (·.2)
  /-- Names of two classes pick out no entry in common. -/
  apart : ∀ a b, a.caselessEq b = false → (m.selected a).Disjoint (m.selected b)
  /-- Names can be chosen, one for each class. -/
  chosen : ∃ names, m.Represents names
  /-- Whichever are chosen, they pick out every entry once. -/
  total : ∀ names, m.Represents names →
    (names.flatMap m.selected).Perm (List.range m.size) ∧ (names.map m.count).sum = m.size

/-- Where the index agrees and the hash does not see case, look-ups go by class. -/
theorem Indexed.byClass (hm : m.Indexed)
    (hfold : ∀ s t : Text, s.caselessEq t = true → hash s = hash t) : m.ByClass where
  same a b h := by
    have hfind : m.findAll a = m.findAll b := by
      rw [findAll_eq_selected, findAll_eq_selected, m.selected_congr hfold h]
    simp only [contains, get?, count, hfind, and_self]
  found := m.findAll_eq_selected
  apart _ _ := m.disjoint_selected
  chosen := ⟨_, m.represents_lowered⟩
  total _ h := ⟨hm.perm_range hfold h, hm.sum_count hfold h⟩

end FieldMap

namespace Shelf

open Text

/-- **Comparison, hash and look-up see the same of a name.**  Two texts are
equal without case exactly if they are the same once their ASCII letters are
lowered, be it character by character or octet by octet; this is an equivalence,
and keeps lengths and every character outside ASCII.

Equal texts have equal hashes, whichever hasher makes them, and texts whose
hashes are equal under every hasher are equal; a hasher is fed the octets of the
lowered text and then their number.  Hence in every map that a history leaves,
under such a hash or any other that does not see case, look-ups go by the class
of the name. -/
theorem names_by_class :
    (∀ a b : Text,
      (a.caselessEq b = true ↔ a.map Char.toLower = b.map Char.toLower) ∧
      (a.caselessEq b = true ↔
        (Utf8.encode a).map lowerOctet = (Utf8.encode b).map lowerOctet) ∧
      (a.caselessEq b = true ↔ ∀ [Hasher], a.caselessHash = b.caselessHash) ∧
      (a.caselessEq b = true → (Utf8.encode a).length = (Utf8.encode b).length ∧
        ∀ (i : Nat) (c : Char), 127 < c.val.toNat → (a[i]? = some c ↔ b[i]? = some c))) ∧
    (∀ [Hasher] (t : Text), t.caselessHash = Hasher.finish (Hasher.writeSize
      ((Utf8.encode (t.map Char.toLower)).foldl Hasher.writeOctet Hasher.start)
      (UInt64.ofNat (Utf8.encode t).length))) ∧
    (Equivalence fun a b : Text => a.caselessEq b = true) ∧
    ∀ hash : Text → UInt64, (∀ s t : Text, s.caselessEq t = true → hash s = hash t) →
      ∀ (n : Nat) (history : List (Fin n × Edit n)) (place : Fin n),
        ((after history : Shelf hash n).get place).ByClass := by
  refine ⟨?_, caselessHash_eq, caselessEq_equivalence, ?_⟩
  · intro a b
    refine ⟨caselessEq_iff, caselessEq_iff_lowerOctet, caselessEq_iff_caselessHash, ?_⟩
    intro h
    exact ⟨length_encode_of_caselessEq h, fun i _ hc => getElem?_iff_of_caselessEq h i hc⟩
  · intro hash hfold n history place
    exact (indexed_after history place).byClass hfold

/-- Three classes under one hash, two of them of letters that differ in case only
outside ASCII; and two names of the first under the hash that is fed octets. -/
theorem names_by_class_one_hash :
    let history : List (Fin 1 × Edit 1) :=
      [(0, .insert ['a', 'B'] ['1']), (0, .insert ['é'] ['2']), (0, .insert ['A', 'b'] ['3']),
        (0, .insert ['É'] ['4'])]
    let names : List Text := [['A', 'B'], ['é'], ['É']]
    let m : FieldMap fun _ => 0 := (after history).get 0
    m.Represents names ∧ (names.map m.count).sum = m.size ∧ m.size = 4 ∧
      m.findAll ['a', 'b'] = m.findAll ['A', 'B'] ∧
      (m.selected ['é']).Disjoint (m.selected ['É']) ∧
      caselessHash ['a', 'b'] = caselessHash ['A', 'B'] := by
  intro history names m
  obtain ⟨hnames, -, -, hlook⟩ := names_by_class
  have hm : m.ByClass := hlook (fun _ => 0) (fun _ _ _ => rfl) 1 history 0
  have hchosen : m.Represents names := by
    refine ⟨by decide, ?_⟩
    have hall : (m.toList.all fun e => names.any fun name => e.1.caselessEq name) = true := by
      decide
    intro e he
    exact List.any_eq_true.mp (List.all_eq_true.mp hall e he)
  have hsame : caselessEq ['a', 'b'] ['A', 'B'] = true := by decide
  have hhash := (hnames ['a', 'b'] ['A', 'B']).2.2.1.mp hsame
  exact ⟨hchosen, (hm.total names hchosen).2, rfl, (hm.same _ _ hsame).2.1,
    hm.apart _ _ (by decide), hhash⟩

end Shelf
end HttpWire
