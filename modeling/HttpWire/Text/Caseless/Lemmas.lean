import HttpWire.Text.Caseless
import HttpWire.Text.Utf8.Lemmas

/-!
# Lowered text

Both the comparison and the hash see a text only through its lowered form:
the comparison compares the lowered texts (`caselessEq_iff`), and the octets
that are fed to a hasher are those of the lowered text (`lowerOctet_encode`).
Lowering keeps the number of octets, which is fed to it as well.  Hence equal
names have equal hashes under every hasher.
-/

namespace HttpWire.Text

variable {a b : Text}

/-- **Two texts are equal without case exactly if they are equal once lowered.** -/
theorem caselessEq_iff : caselessEq a b = true ↔ a.map Char.toLower = b.map Char.toLower := by
  induction a generalizing b with
  | nil => cases b <;> simp [caselessEq]
  | cons c s ih => cases b <;> simp [caselessEq, ih]

/-- Only ASCII characters are lowered. -/
theorem toLower_of_long {c : Char} (hc : 127 < c.val.toNat) : c.toLower = c := by
  have h90 : 'Z'.val.toNat = 90 := rfl
  unfold Char.toLower
  rw [dif_neg]
  rintro ⟨-, h⟩
  rw [UInt32.le_iff_toNat_le] at h
  omega

/-- An ASCII character stays one when lowered, and a second time changes
nothing. -/
theorem toLower_of_short {c : Char} (hc : c.val.toNat ≤ 127) :
    c.toLower.val.toNat ≤ 127 ∧ c.toLower.toLower = c.toLower := by
  have hsmall : ∀ v : Fin 128, (Char.ofNat v).toLower.val.toNat ≤ 127 ∧
      (Char.ofNat v).toLower.toLower = (Char.ofNat v).toLower := by decide +kernel
  have h := hsmall ⟨c.val.toNat, by omega⟩
  simpa only [show Char.ofNat c.val.toNat = c from Char.ofNat_toNat c] using h

/-- Lowering a second time changes nothing. -/
theorem toLower_toLower (c : Char) : c.toLower.toLower = c.toLower := by
  rcases Nat.lt_or_ge 127 c.val.toNat with hlong | hshort
  · rw [toLower_of_long hlong, toLower_of_long hlong]
  · exact (toLower_of_short hshort).2

/-- **A character outside ASCII is the lowered form of itself alone.** -/
theorem eq_of_toLower_eq {c d : Char} (hc : 127 < c.val.toNat) (h : d.toLower = c) : d = c := by
  rcases Nat.lt_or_ge 127 d.val.toNat with hlong | hshort
  · rw [← h, toLower_of_long hlong]
  · have hsmall := (toLower_of_short hshort).1
    rw [h] at hsmall
    omega

/-! ## Octets -/

/-- Lowering the octets of a character is lowering the character. -/
theorem lowerOctet_encodeChar (c : Char) :
    (String.utf8EncodeChar c).map lowerOctet = String.utf8EncodeChar c.toLower := by
  have hkeep : ∀ n : Nat, 128 ≤ n → n < 256 → lowerOctet (UInt8.ofNat n) = UInt8.ofNat n := by
    intro n hlow hhigh
    have hn : (UInt8.ofNat n).toNat = n := by simp [Nat.mod_eq_of_lt hhigh]
    have h90 : (90 : UInt8).toNat = 90 := rfl
    unfold lowerOctet
    rw [if_neg]
    rintro ⟨-, h⟩
    rw [UInt8.le_iff_toNat_le, hn] at h
    omega
  by_cases hbig : 127 < c.val.toNat
  · rw [toLower_of_long hbig]
    have hvalid : c.val.toNat < 0xD800 ∨ 0xDFFF < c.val.toNat ∧ c.val.toNat < 0x110000 := c.valid
    unfold String.utf8EncodeChar
    generalize c.val.toNat = v at hbig hvalid
    simp only
    rw [if_neg (by omega)]
    split
    · simp only [List.map_cons, List.map_nil]
      rw [hkeep _ (by omega) (by omega), hkeep _ (by omega) (by omega)]
    · split
      · simp only [List.map_cons, List.map_nil]
        rw [hkeep _ (by omega) (by omega), hkeep _ (by omega) (by omega),
          hkeep _ (by omega) (by omega)]
      · simp only [List.map_cons, List.map_nil]
        rw [hkeep _ (by omega) (by omega), hkeep _ (by omega) (by omega),
          hkeep _ (by omega) (by omega), hkeep _ (by omega) (by omega)]
  · have hsmall : ∀ v : Fin 128,
        (String.utf8EncodeChar (Char.ofNat v)).map lowerOctet =
          String.utf8EncodeChar (Char.ofNat v).toLower := by decide +kernel
    have h := hsmall ⟨c.val.toNat, by omega⟩
    simpa only [show Char.ofNat c.val.toNat = c from Char.ofNat_toNat c] using h

/-- The lowered octets of a text are the octets of the lowered text. -/
theorem lowerOctet_encode (t : Text) :
    (Utf8.encode t).map lowerOctet = Utf8.encode (t.map Char.toLower) := by
  induction t with
  | nil => rfl
  | cons c t ih =>
    simp only [Utf8.encode_cons, List.map_append, List.map_cons, lowerOctet_encodeChar, ih]

/-- **Comparing octets without case comes to the same** as comparing
characters. -/
theorem caselessEq_iff_lowerOctet :
    caselessEq a b = true ↔ (Utf8.encode a).map lowerOctet = (Utf8.encode b).map lowerOctet := by
  rw [caselessEq_iff, lowerOctet_encode, lowerOctet_encode, Utf8.encode_inj]

/-! ## What equal texts have in common -/

/-- Being equal without case is an equivalence. -/
theorem caselessEq_equivalence : Equivalence fun a b : Text => caselessEq a b = true where
  refl _ := caselessEq_iff.mpr rfl
  symm h := caselessEq_iff.mpr (caselessEq_iff.mp h).symm
  trans h h' := caselessEq_iff.mpr ((caselessEq_iff.mp h).trans (caselessEq_iff.mp h'))

/-- Texts equal without case have as many octets. -/
theorem length_encode_of_caselessEq (h : caselessEq a b = true) :
    (Utf8.encode a).length = (Utf8.encode b).length := by
  have hlength := congrArg List.length (caselessEq_iff_lowerOctet.mp h)
  simpa only [List.length_map] using hlength

/-- **Characters outside ASCII stand at the same places** in texts equal without
case. -/
theorem getElem?_iff_of_caselessEq (h : caselessEq a b = true) (i : Nat) {c : Char}
    (hc : 127 < c.val.toNat) : a[i]? = some c ↔ b[i]? = some c := by
  have honly : ∀ s t : Text, caselessEq s t = true → s[i]? = some c → t[i]? = some c := by
    intro s t hst hs
    have hlower : s[i]?.map Char.toLower = t[i]?.map Char.toLower := by
      rw [← List.getElem?_map, ← List.getElem?_map, caselessEq_iff.mp hst]
    rw [hs, Option.map_some, toLower_of_long hc] at hlower
    obtain ⟨d, ht, hd⟩ := Option.map_eq_some_iff.mp hlower.symm
    rw [ht, eq_of_toLower_eq hc hd]
  exact ⟨honly a b h, honly b a (caselessEq_equivalence.symm h)⟩

/-- A text is equal without case to its lowered form. -/
theorem caselessEq_lowered (t : Text) : caselessEq t (t.map Char.toLower) = true := by
  rw [caselessEq_iff, List.map_map]
  exact List.map_congr_left fun c _ => (toLower_toLower c).symm

/-! ## Hashes -/

/-- **What a hasher is fed**: the octets of the lowered text, and then the number
of octets that the text has. -/
theorem caselessHash_eq [Hasher] (t : Text) :
    caselessHash t = Hasher.finish (Hasher.writeSize
      ((Utf8.encode (t.map Char.toLower)).foldl Hasher.writeOctet Hasher.start)
      (UInt64.ofNat (Utf8.encode t).length)) := by
  rw [← lowerOctet_encode, caselessHash]

/-- **Texts equal without case have the same hash**, whichever hasher makes it:
it is fed the same octets and the same number. -/
theorem caselessHash_eq_of_caselessEq [Hasher] (h : caselessEq a b = true) :
    caselessHash a = caselessHash b := by
  rw [caselessHash_eq, caselessHash_eq, caselessEq_iff.mp h, length_encode_of_caselessEq h]

/-- A hasher that keeps the octets it is fed, the last one in front, and tells
one row of them from all others. -/
abbrev tellingHasher (octets : Octets) : Hasher where
  State := Octets
  start := []
  writeOctet seen b := b :: seen
  writeSize seen _ := seen
  finish seen := if seen = octets.reverse then 1 else 0

/-- Its hash is 1 for just the texts whose lowered octets are that row. -/
theorem caselessHash_tellingHasher (octets : Octets) (t : Text) :
    @caselessHash (tellingHasher octets) t =
      if (Utf8.encode t).map lowerOctet = octets then 1 else 0 := by
  have hseen : ∀ fed : Octets, fed.foldl (fun seen b => b :: seen) [] = fed.reverse := by
    intro fed
    rw [List.foldl_flip_cons_eq_append', List.append_nil]
  calc @caselessHash (tellingHasher octets) t
      = if ((Utf8.encode t).map lowerOctet).foldl (fun seen b => b :: seen) [] = octets.reverse
          then 1 else 0 := rfl
    _ = if (Utf8.encode t).map lowerOctet = octets then 1 else 0 := by
        simp only [hseen, List.reverse_inj]

/-- **Equal without case are just the texts that no hasher tells apart.** -/
theorem caselessEq_iff_caselessHash :
    caselessEq a b = true ↔ ∀ [Hasher], caselessHash a = caselessHash b := by
  constructor
  · intro h _
    exact caselessHash_eq_of_caselessEq h
  · intro h
    have htold := @h (tellingHasher ((Utf8.encode a).map lowerOctet))
    rw [caselessHash_tellingHasher, caselessHash_tellingHasher, if_pos rfl] at htold
    by_cases hsame : (Utf8.encode b).map lowerOctet = (Utf8.encode a).map lowerOctet
    · exact caselessEq_iff_lowerOctet.mpr hsame.symm
    · rw [if_neg hsame] at htold
      exact absurd htold (by decide)

end HttpWire.Text
