import HttpWire.Head.Basic
import HttpWire.Proofs.Fields.Index
import HttpWire.Proofs.Text.Pieces

/-!
# One list of connection tokens

The tokens of a connection may be spread over any number of `Connection`
fields.  They are gone through field by field and token by token, and `close`
ends that at once; what comes out is the same as if all tokens stood in one
list (`foldlM_tokens`).  Of that list it matters only which tokens are on it
(`isKeepAlive_iff`), not in what order they come nor in which field each of
them stands.

The main statement is `isKeepAlive_one_list`.
-/

namespace HttpWire.Head

variable {token : Text}

/-- A token is listed by entries: trimmed, and apart from case, it is one of the
pieces between the commas of a `Connection` field. -/
def ListedIn (entries : List Entry) (token : Text) : Prop :=
  ∃ e ∈ entries, e.1.caselessEq connectionName = true ∧
    ∃ piece, Text.IsPiece ',' piece e.2 ∧ piece.trim.caselessEq token = true

/-- The `Connection` fields of a head list a token. -/
def Lists [Hasher] (head : Head) (token : Text) : Prop :=
  ListedIn head.fields.toList token

/-! ## Going through the tokens -/

/-- **Tokens one by one**: there is `close` among them, or else `keep-alive` has
been heard if it was before or is among them. -/
theorem foldlM_hear? (heard : Bool) (list : List Text) :
    list.foldlM hear? heard =
      if list.any (·.caselessEq closeToken) then none
      else some (heard || list.any (·.caselessEq keepAliveToken)) := by
  induction list generalizing heard with
  | nil => simp
  | cons token later ih =>
      rw [List.foldlM_cons, hear?]
      by_cases hclose : token.caselessEq closeToken = true
      · simp [hclose]
      · simp [hclose, ih, Bool.or_assoc]

/-- **Fields one by one** come to all their tokens in one list. -/
theorem foldlM_tokens (heard : Bool) (values : List Text) :
    values.foldlM (fun heard value => (tokens value).foldlM hear? heard) heard =
      (values.flatMap tokens).foldlM hear? heard := by
  induction values generalizing heard with
  | nil => rfl
  | cons value later ih =>
      rw [List.foldlM_cons, List.flatMap_cons, List.foldlM_append]
      simp only [ih]

/-! ## What entries list -/

/-- The tokens of a value are its pieces, trimmed. -/
theorem exists_token_iff {value : Text} :
    (∃ listed, listed ∈ tokens value ∧ listed.caselessEq token = true) ↔
      ∃ piece, Text.IsPiece ',' piece value ∧ piece.trim.caselessEq token = true := by
  simp only [tokens, List.mem_map, Text.mem_splitOn_iff, exists_exists_and_eq_and]

/-- Going through entries and their tokens finds the tokens that are listed. -/
theorem any_entries_iff {entries : List Entry} :
    (entries.any fun e => e.1.caselessEq connectionName &&
      (tokens e.2).any (·.caselessEq token)) = true ↔ ListedIn entries token := by
  simp only [List.any_eq_true, Bool.and_eq_true, exists_token_iff, ListedIn]

instance (entries : List Entry) (token : Text) : Decidable (ListedIn entries token) :=
  decidable_of_iff _ any_entries_iff

theorem listedIn_cons {e : Entry} {entries : List Entry} :
    ListedIn (e :: entries) token ↔
      (e.1.caselessEq connectionName = true ∧
        ∃ piece, Text.IsPiece ',' piece e.2 ∧ piece.trim.caselessEq token = true) ∨
      ListedIn entries token := by
  unfold ListedIn
  simp only [List.mem_cons, exists_eq_or_imp]

/-- What is listed does not depend on the order of the entries. -/
theorem listedIn_perm {entries entries' : List Entry} (hperm : entries.Perm entries') :
    ListedIn entries token ↔ ListedIn entries' token := by
  unfold ListedIn
  simp only [hperm.mem_iff]

/-- **Two `Connection` fields list what one does** that has their values with a
comma between them. -/
theorem listedIn_join {name₁ name₂ name value₁ value₂ : Text} {rest : List Entry}
    (h₁ : name₁.caselessEq connectionName = true) (h₂ : name₂.caselessEq connectionName = true)
    (h : name.caselessEq connectionName = true) :
    ListedIn ((name, value₁ ++ ',' :: value₂) :: rest) token ↔
      ListedIn ((name₁, value₁) :: (name₂, value₂) :: rest) token := by
  simp only [listedIn_cons, h₁, h₂, h, true_and, Text.isPiece_append_mark_iff, or_and_right,
    exists_or, or_assoc]

section

variable [Hasher] {head : Head}

/-! ## What a head lists -/

/-- The tokens that are gone through are those that the head lists. -/
theorem any_tokens_iff (hfields : head.fields.Indexed) :
    ((head.fields.findAll connectionName).flatMap tokens).any (·.caselessEq token) = true ↔
      head.Lists token := by
  rw [hfields.findAll_eq fun _ _ => Text.caselessHash_eq_of_caselessEq, FieldMap.matching,
    List.any_flatMap, List.any_map, List.any_filter]
  exact any_entries_iff

/-- **A connection stays open** if `close` is not listed, and `keep-alive` is or
the version keeps it open by itself. -/
theorem isKeepAlive_iff (hfields : head.fields.Indexed) :
    head.isKeepAlive = true ↔ ¬ head.Lists closeToken ∧
      (head.Lists keepAliveToken ∨ head.version = persistentVersion) := by
  rw [← any_tokens_iff hfields, ← any_tokens_iff hfields]
  unfold isKeepAlive heard?
  rw [foldlM_tokens, foldlM_hear?]
  generalize (head.fields.findAll connectionName).flatMap tokens = list
  cases hclose : list.any (·.caselessEq closeToken) with
  | true => simp
  | false => simp

/-! ## Heads that are read

What is said here and elsewhere of heads whose index agrees with their fields
holds of every head that is read, from whatever data.
-/

/-- A block keeps the index in agreement with the fields. -/
theorem indexed_readFieldsAfter {limits : Limits} {fields : Fields} {s : Source}
    (hfields : fields.Indexed) : (s.readFieldsAfter limits fields).1.Indexed := by
  fun_induction Source.readFieldsAfter limits fields s with
  | case1 => exact hfields
  | case2 => exact hfields
  | case3 => exact hfields
  | case4 fields s line rest hread hkind ih => exact ih hfields
  | case5 => exact hfields
  | case6 fields s line rest hread name value hkind hroom ih =>
      exact ih (hfields.insert name value)

/-- **The index of a head that is read agrees with its fields.** -/
theorem indexed_readHead {α : Type} {parse : Text → Except HeadError α} {limits : Limits}
    {s : Source} {start : α} {fields : Fields}
    (hread : (s.readHead parse limits).1 = .ok (start, fields)) : fields.Indexed := by
  unfold Source.readHead at hread
  split at hread
  · cases hread
  · cases hread
  · split at hread
    · cases hread
    · cases hread
      exact indexed_readFieldsAfter FieldMap.indexed_empty

/-! ## Changes to the fields -/

/-- Only the version and what is listed decide. -/
theorem isKeepAlive_congr {other : Head} (hfields : head.fields.Indexed)
    (hfields' : other.fields.Indexed) (hversion : other.version = head.version)
    (hlists : ∀ token, other.Lists token ↔ head.Lists token) :
    other.isKeepAlive = head.isKeepAlive := by
  rw [Bool.eq_iff_iff, isKeepAlive_iff hfields, isKeepAlive_iff hfields', hversion]
  simp only [hlists]

/-- **All `Connection` fields are one list.**  For a head with any version and
any fields:

* if `close` is listed, in any field, the connection is closed;
* otherwise it stays open if `keep-alive` is listed;
* otherwise it stays open exactly if the version keeps it open by itself.

So it makes no difference in what order the fields come, nor whether two
`Connection` fields stand by themselves or, with a comma between their values
and at any place, as one. -/
theorem isKeepAlive_one_list (head : Head) (hfields : head.fields.Indexed) :
    (head.Lists closeToken → head.isKeepAlive = false) ∧
      (¬ head.Lists closeToken → head.Lists keepAliveToken → head.isKeepAlive = true) ∧
      (¬ head.Lists closeToken → ¬ head.Lists keepAliveToken →
        (head.isKeepAlive = true ↔ head.version = persistentVersion)) ∧
      ∀ other : Head, other.fields.Indexed → other.version = head.version →
        (other.fields.toList.Perm head.fields.toList → other.isKeepAlive = head.isKeepAlive) ∧
        ∀ (name₁ name₂ name value₁ value₂ : Text) (rest : List Entry),
          name₁.caselessEq connectionName = true → name₂.caselessEq connectionName = true →
          name.caselessEq connectionName = true →
          head.fields.toList.Perm ((name₁, value₁) :: (name₂, value₂) :: rest) →
          other.fields.toList.Perm ((name, value₁ ++ ',' :: value₂) :: rest) →
          other.isKeepAlive = head.isKeepAlive := by
  have hopen := isKeepAlive_iff hfields
  refine ⟨?_, ?_, ?_, ?_⟩
  · intro hclose
    rw [← Bool.not_eq_true, hopen]
    exact fun hstays => hstays.1 hclose
  · intro hclose hkeep
    exact hopen.mpr ⟨hclose, Or.inl hkeep⟩
  · intro hclose hkeep
    rw [hopen]
    exact ⟨fun hstays => hstays.2.resolve_left hkeep, fun hversion => ⟨hclose, Or.inr hversion⟩⟩
  · intro other hfields' hversion
    refine ⟨?_, ?_⟩
    · intro hperm
      exact isKeepAlive_congr hfields hfields' hversion fun token => listedIn_perm hperm
    · intro name₁ name₂ name value₁ value₂ rest h₁ h₂ h hperm hperm'
      apply isKeepAlive_congr hfields hfields' hversion
      intro token
      unfold Lists
      rw [listedIn_perm hperm', listedIn_perm hperm]
      exact listedIn_join h₁ h₂ h

end

/-- `close` in the last of three fields, which wins wherever it stands; and
`keep-alive` and no token at all in a version that closes connections. -/
theorem isKeepAlive_one_list_close_last :
    let keep : Text := [' ', 'K', 'e', 'e', 'p', '-', 'A', 'l', 'i', 'v', 'e', '\t']
    let close : Text := ['x', ',', ' ', 'C', 'L', 'O', 'S', 'E']
    let name : Text := ['c', 'O', 'N', 'N', 'e', 'c', 't', 'i', 'o', 'n']
    let ofEntries : Text → List Entry → Head := fun version entries =>
      ⟨version, FieldMap.ofList entries⟩
    let head := ofEntries persistentVersion [(name, keep), (['a'], []), (connectionName, close)]
    let moved := ofEntries persistentVersion [(connectionName, close), (name, keep), (['a'], [])]
    let joined := ofEntries persistentVersion [(['a'], []), (name, close ++ ',' :: keep)]
    let old := ofEntries ['1', '.', '0'] [(name, keep)]
    let silent := ofEntries ['1', '.', '0'] []
    (head.fields.Indexed ∧ moved.fields.Indexed ∧ joined.fields.Indexed ∧
        old.fields.Indexed ∧ silent.fields.Indexed) ∧
      (head.Lists closeToken ∧ head.isKeepAlive = false) ∧
      (moved.fields.toList.Perm head.fields.toList ∧ moved.isKeepAlive = false) ∧
      (name.caselessEq connectionName = true ∧ joined.isKeepAlive = false) ∧
      (¬ old.Lists closeToken ∧ old.Lists keepAliveToken ∧ old.isKeepAlive = true) ∧
      ¬ silent.Lists closeToken ∧ ¬ silent.Lists keepAliveToken ∧ silent.isKeepAlive ≠ true := by
  intro keep close name ofEntries head moved joined old silent
  have hindexed : ∀ version entries, (ofEntries version entries).fields.Indexed :=
    fun _ entries => FieldMap.indexed_ofList entries
  have hlist : ∀ version entries, (ofEntries version entries).fields.toList = entries :=
    fun _ entries => FieldMap.toList_ofList entries
  have hlists : ∀ version entries token,
      (ofEntries version entries).Lists token ↔ ListedIn entries token := by
    intro version entries token
    rw [Lists, hlist]
  have hname : name.caselessEq connectionName = true := by decide
  obtain ⟨hclosed, -, -, hother⟩ := isKeepAlive_one_list head (hindexed _ _)
  have hclose : head.Lists closeToken := (hlists _ _ _).mpr (by decide)
  have hmoved : moved.fields.toList.Perm head.fields.toList := by
    rw [hlist, hlist]
    decide
  have hpair : head.fields.toList.Perm
      ((connectionName, close) :: (name, keep) :: [(['a'], [])]) := by
    rw [hlist]
    decide
  have hjoined : joined.fields.toList.Perm ((name, close ++ ',' :: keep) :: [(['a'], [])]) := by
    rw [hlist]
    decide
  have hold : ¬ old.Lists closeToken ∧ old.Lists keepAliveToken := by
    rw [hlists, hlists]
    decide
  have hsilent : ¬ silent.Lists closeToken ∧ ¬ silent.Lists keepAliveToken := by
    rw [hlists, hlists]
    decide
  obtain ⟨-, hkeeps, -, -⟩ := isKeepAlive_one_list old (hindexed _ _)
  obtain ⟨-, -, hversion, -⟩ := isKeepAlive_one_list silent (hindexed _ _)
  refine ⟨⟨hindexed _ _, hindexed _ _, hindexed _ _, hindexed _ _, hindexed _ _⟩,
    ⟨hclose, hclosed hclose⟩, ⟨hmoved, ?_⟩, ⟨hname, ?_⟩,
    ⟨hold.1, hold.2, hkeeps hold.1 hold.2⟩, hsilent.1, hsilent.2, ?_⟩
  · rw [(hother moved (hindexed _ _) rfl).1 hmoved]
    exact hclosed hclose
  · rw [(hother joined (hindexed _ _) rfl).2 connectionName name name close keep _ (by decide)
      hname hname hpair hjoined]
    exact hclosed hclose
  · rw [ne_eq, hversion hsilent.1 hsilent.2]
    decide

end HttpWire.Head
