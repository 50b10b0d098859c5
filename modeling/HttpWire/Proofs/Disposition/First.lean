import HttpWire.Proofs.Disposition.Written

/-!
# The first parameter that is kept

The type of a disposition is meant to be a bare name at its head.  What is
stored of a parameter, however, is its name and its value, and a bare name is
stored with the empty value.  So is a name with nothing between its quotes, and
the two cannot be told apart any more.

`FirstKept` says of a text which parameter is the first that is kept, and how
it is written: those before it are dropped because their values have no quotes.
There is at most one such parameter (`FirstKept.unique`), and there is one as
soon as anything is kept.  The type is its name if it is bare, and also if its
quotes are empty (`type?_iff_firstKept`).
-/

namespace HttpWire.Disposition

/-- The first parameter of a text that is kept, as it is written. -/
inductive FirstKept : Text → Parameter → Prop
  /-- A bare name up to the end of the text. -/
  | last {gap name : Text} (hgap : IsGap gap) (hname : IsName name) :
      FirstKept (gap ++ name) ⟨name, none⟩
  /-- A bare name up to a `;`. -/
  | bare {gap name after : Text} (hgap : IsGap gap) (hname : IsName name) :
      FirstKept (gap ++ (name ++ ';' :: after)) ⟨name, none⟩
  /-- A name with a quoted value. -/
  | quoted {gap name junk value after : Text} (hgap : IsGap gap) (hname : IsName name)
      (hjunk : IsJunk junk) (hvalue : '"' ∉ value) :
      FirstKept (gap ++ (name ++ '=' :: (junk ++ '"' :: (value ++ '"' :: after))))
        ⟨name, some value⟩
  /-- A name without quotes around its value is dropped. -/
  | dropped {gap name junk after : Text} {p : Parameter} (hgap : IsGap gap) (hname : IsName name)
      (hjunk : IsJunk junk) (hafter : FirstKept after p) :
      FirstKept (gap ++ (name ++ '=' :: (junk ++ ';' :: after))) p

variable {t name : Text} {p q : Parameter} {e : Entry}

/-- The first parameter that is kept is the first item. -/
theorem FirstKept.head?_items (h : FirstKept t p) : (items t).head? = some p.entry := by
  induction h with
  | last hgap hname =>
      rw [items_last hgap hname]
      rfl
  | bare hgap hname =>
      rw [items_bare hgap hname]
      rfl
  | quoted hgap hname hjunk hvalue =>
      rw [items_quoted hgap hname hjunk hvalue]
      rfl
  | dropped hgap hname hjunk hafter ih =>
      rw [items_unquoted hgap hname hjunk]
      exact ih

/-- The scan finds it first, with a value exactly if there are quotes. -/
theorem FirstKept.head?_scanFrom (h : FirstKept t p) (i : Nat) :
    ((scanFrom i .between (Utf8.encode t)).head?.map fun found => found.value.isSome) =
      some p.quoted.isSome := by
  induction h generalizing i with
  | last hgap hname =>
      rw [scanFrom_last hgap hname]
      rfl
  | bare hgap hname =>
      rw [scanFrom_bare hgap hname]
      rfl
  | quoted hgap hname hjunk hvalue =>
      rw [scanFrom_valued hgap hname, scanFrom_quoted hjunk hvalue]
      rfl
  | dropped hgap hname hjunk hafter ih =>
      rw [scanFrom_valued hgap hname, scanFrom_unquoted hjunk]
      exact ih _

/-- **At most one parameter is the first.**  Its entry tells its name and its
value, and the scan tells whether there are quotes. -/
theorem FirstKept.unique (hp : FirstKept t p) (hq : FirstKept t q) : p = q := by
  have hentry : p.entry = q.entry :=
    Option.some.inj (hp.head?_items.symm.trans hq.head?_items)
  have hquotes : p.quoted.isSome = q.quoted.isSome :=
    Option.some.inj ((hp.head?_scanFrom 0).symm.trans (hq.head?_scanFrom 0))
  obtain ⟨name, quoted⟩ := p
  obtain ⟨name', quoted'⟩ := q
  simp only [Parameter.entry, Prod.mk.injEq] at hentry
  obtain ⟨rfl, hvalue⟩ := hentry
  cases quoted with
  | none =>
      cases quoted' with
      | none => rfl
      | some value' => exact absurd hquotes (by simp)
  | some value =>
      cases quoted' with
      | none => exact absurd hquotes (by simp)
      | some value' =>
          have hsame : value = value' := hvalue
          rw [hsame]

/-- **There is a first one as soon as anything is kept.**  The induction is on
the length of the text; each dropped parameter makes it shorter. -/
theorem exists_firstKept (t : Text) (hne : items t ≠ []) : ∃ p, FirstKept t p := by
  induction hn : t.length using Nat.strongRecOn generalizing t with
  | ind n ih =>
      cases opening t with
      | blank hgap => exact absurd (items_gap hgap) hne
      | last hgap hname => exact ⟨_, .last hgap hname⟩
      | bare hgap hname => exact ⟨_, .bare hgap hname⟩
      | @valued gap name after hgap hname =>
          cases valueOpening after with
          | junk hjunk =>
              rw [items_valued hgap hname, valuePart_junk hjunk] at hne
              exact absurd rfl hne
          | unclosed hjunk hvalue =>
              rw [items_valued hgap hname, valuePart_unclosed hjunk hvalue] at hne
              exact absurd rfl hne
          | quoted hjunk hvalue => exact ⟨_, .quoted hgap hname hjunk hvalue⟩
          | @unquoted junk after hjunk =>
              rw [items_unquoted hgap hname hjunk] at hne
              have hshort : after.length < n := by
                simp only [List.length_append, List.length_cons] at hn
                omega
              obtain ⟨p, hp⟩ := ih after.length hshort after hne rfl
              exact ⟨p, .dropped hgap hname hjunk hp⟩

/-- The first entry is that of the first parameter that is kept. -/
theorem head?_items_iff : (items t).head? = some e ↔ ∃ p, FirstKept t p ∧ p.entry = e := by
  constructor
  · intro h
    have hne : items t ≠ [] := by
      intro hnil
      rw [hnil] at h
      exact absurd h (by simp)
    obtain ⟨p, hp⟩ := exists_firstKept t hne
    exact ⟨p, hp, Option.some.inj (hp.head?_items.symm.trans h)⟩
  · intro h
    obtain ⟨p, hp, rfl⟩ := h
    exact hp.head?_items

/-- An entry with the empty value comes of a bare name or of empty quotes. -/
theorem entry_eq_empty_iff : p.entry = (name, []) ↔ p = ⟨name, none⟩ ∨ p = ⟨name, some []⟩ := by
  obtain ⟨name', quoted⟩ := p
  cases quoted <;> simp [Parameter.entry]

/-- The type is the name of the first entry, if that has the empty value. -/
theorem type?_eq_some_iff [Hasher] (d : Disposition) :
    d.type? = some name ↔ d.params.toList.head? = some (name, []) := by
  rw [type?]
  split
  · rename_i hhead
    rw [hhead]
    simp
  · rename_i hhead
    constructor
    · intro h
      exact absurd h (by simp)
    · intro h
      exact absurd h (hhead name)

/-- **The type is the name of the first parameter that is kept, if that is bare
or has nothing between its quotes.** -/
theorem type?_iff_firstKept [Hasher] (t : Text) :
    (∀ e, (parse t).params.toList.head? = some e ↔ ∃ p, FirstKept t p ∧ p.entry = e) ∧
      (∀ name, (parse t).type? = some name ↔
        FirstKept t ⟨name, none⟩ ∨ FirstKept t ⟨name, some []⟩) ∧
      ((parse t).isFormData = true ↔ ∃ name, name.caselessEq formData = true ∧
        (FirstKept t ⟨name, none⟩ ∨ FirstKept t ⟨name, some []⟩)) := by
  have htype : ∀ name, (parse t).type? = some name ↔
      FirstKept t ⟨name, none⟩ ∨ FirstKept t ⟨name, some []⟩ := by
    intro name
    rw [type?_eq_some_iff, toList_parse, head?_items_iff]
    simp only [entry_eq_empty_iff]
    constructor
    · intro h
      obtain ⟨p, hp, rfl | rfl⟩ := h
      · exact Or.inl hp
      · exact Or.inr hp
    · intro h
      rcases h with hp | hp
      · exact ⟨_, hp, Or.inl rfl⟩
      · exact ⟨_, hp, Or.inr rfl⟩
  refine ⟨?_, htype, ?_⟩
  · intro e
    rw [toList_parse, head?_items_iff]
  · rw [isFormData, Option.any_eq_true]
    simp only [htype, and_comm]

/-- A name with empty quotes is taken for a bare one, and makes the type. -/
theorem type?_of_empty_quotes :
    let t := formData ++ ['=', '"', '"']
    FirstKept t ⟨formData, some []⟩ ∧ (∀ name, ¬ FirstKept t ⟨name, none⟩) ∧
      (parse t).type? = some formData ∧ (parse t).isFormData = true := by
  intro t
  have hnothing : IsGap [] ∧ IsJunk [] := by decide
  have hname : IsName formData := by decide
  have hempty : '"' ∉ ([] : Text) := List.not_mem_nil
  have hfirst : FirstKept ([] ++ (formData ++ '=' :: ([] ++ '"' :: ([] ++ '"' :: []))))
      ⟨formData, some []⟩ := .quoted hnothing.1 hname hnothing.2 hempty
  refine ⟨hfirst, ?_, by decide, by decide⟩
  intro name hbare
  exact absurd (hfirst.unique hbare) (by simp)

end HttpWire.Disposition
