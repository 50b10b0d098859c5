import HttpWire.Text.Utf8

/-!
# Reading undoes writing

The octets of a written character lead the reader through the middle of that
character and back to the start, having given the character itself.  So text
that was written is read back, and the octets behind it are read as if nothing
had stood before them: `decode_encode_append`.

Of octets that nobody wrote less can be said, but this much: reading them adds
no ASCII character that was not there as an octet (`mem_of_mem_decode`).  A
character of more than one octet lies outside ASCII from its first two octets
on, and so does the character that stands for an ill-formed part.
-/

namespace HttpWire.Utf8

/-- Encoding goes character by character. -/
theorem encode_append (s t : Text) : encode (s ++ t) = encode s ++ encode t :=
  List.flatMap_append

/-- A text is written from its first character on. -/
theorem encode_cons (c : Char) (t : Text) :
    encode (c :: t) = String.utf8EncodeChar c ++ encode t := rfl

theorem encode_singleton (c : Char) : encode [c] = String.utf8EncodeChar c :=
  List.append_nil _

/-- The number of an octet given as a number. -/
private theorem toNat_octet {n : Nat} (h : n < 256) : (UInt8.ofNat n).toNat = n := by
  simp [Nat.mod_eq_of_lt h]

/-- Inside a character, an octet in range either completes it or goes on. -/
theorem resume_of_mem {p : Partial} {n : Nat} (hn : n < 256) (hlow : p.low ≤ n)
    (hhigh : n ≤ p.high) :
    resume p (UInt8.ofNat n) =
      match p.after with
      | 0 => ([Char.ofNat (p.value * 64 + (n - 0x80))], none)
      | k + 1 => ([], some ⟨0x80, 0xBF, k, p.value * 64 + (n - 0x80)⟩) := by
  unfold resume
  rw [toNat_octet hn]
  exact if_pos ⟨hlow, hhigh⟩

/-- The octets that are characters. -/
private theorem lead_one {n : Nat} (h : n < 0x80) :
    lead (UInt8.ofNat n) = .whole (Char.ofNat n) := by
  simp only [lead, toNat_octet (show n < 256 by omega)]
  rw [if_pos h]

/-- The octets that open a character of two. -/
private theorem lead_two {n : Nat} (hlow : 0xC2 ≤ n) (hhigh : n < 0xE0) :
    lead (UInt8.ofNat n) = .opens ⟨0x80, 0xBF, 0, n - 0xC0⟩ := by
  simp only [lead, toNat_octet (show n < 256 by omega)]
  rw [if_neg (by omega), if_neg (by omega), if_pos hhigh]

/-- The octets that open a character of three. -/
private theorem lead_three {n : Nat} (hlow : 0xE0 ≤ n) (hhigh : n < 0xF0) :
    lead (UInt8.ofNat n) =
      .opens ⟨if n = 0xE0 then 0xA0 else 0x80, if n = 0xED then 0x9F else 0xBF, 1, n - 0xE0⟩ := by
  simp only [lead, toNat_octet (show n < 256 by omega)]
  rw [if_neg (by omega), if_neg (by omega), if_neg (by omega)]
  by_cases hfirst : n = 0xE0
  · simp [hfirst]
  · by_cases hgap : n = 0xED
    · simp [hgap]
    · simp [hfirst, hgap, hhigh]

/-- The octets that open a character of four. -/
private theorem lead_four {n : Nat} (hlow : 0xF0 ≤ n) (hhigh : n < 0xF5) :
    lead (UInt8.ofNat n) =
      .opens ⟨if n = 0xF0 then 0x90 else 0x80, if n = 0xF4 then 0x8F else 0xBF, 2, n - 0xF0⟩ := by
  simp only [lead, toNat_octet (show n < 256 by omega)]
  rw [if_neg (by omega), if_neg (by omega), if_neg (by omega), if_neg (by omega),
    if_neg (by omega), if_neg (by omega)]
  by_cases hfirst : n = 0xF0
  · simp [hfirst]
  · by_cases hlast : n = 0xF4
    · simp [hlast]
    · have hmid : n < 0xF4 := by omega
      simp [hfirst, hlast, hmid]

/-- Every octet of a character outside ASCII is outside ASCII. -/
theorem le_toNat_of_mem_encodeChar {c : Char} {b : UInt8} (hc : 128 ≤ c.val.toNat)
    (hb : b ∈ String.utf8EncodeChar c) : 128 ≤ b.toNat := by
  have hvalid : c.val.toNat < 0xD800 ∨ 0xDFFF < c.val.toNat ∧ c.val.toNat < 0x110000 := c.valid
  unfold String.utf8EncodeChar at hb
  generalize c.val.toNat = v at hc hvalid hb
  simp only at hb
  rw [if_neg (by omega)] at hb
  split at hb
  · simp only [List.mem_cons, List.not_mem_nil, or_false] at hb
    rcases hb with rfl | rfl <;> rw [toNat_octet (by omega)] <;> omega
  · split at hb
    · simp only [List.mem_cons, List.not_mem_nil, or_false] at hb
      rcases hb with rfl | rfl | rfl <;> rw [toNat_octet (by omega)] <;> omega
    · simp only [List.mem_cons, List.not_mem_nil, or_false] at hb
      rcases hb with rfl | rfl | rfl | rfl <;> rw [toNat_octet (by omega)] <;> omega

/-- An ASCII character is its one octet. -/
theorem encodeChar_of_lt {c : Char} (hc : c.val.toNat < 128) :
    String.utf8EncodeChar c = [UInt8.ofNat c.val.toNat] := by
  unfold String.utf8EncodeChar
  simp only
  rw [if_pos (by omega)]

/-- Only the first octet of a character may be ASCII. -/
theorem encodeChar_eq_cons (c : Char) :
    ∃ b tail, String.utf8EncodeChar c = b :: tail ∧ ∀ d ∈ tail, 128 ≤ d.toNat := by
  rcases Nat.lt_or_ge c.val.toNat 128 with hsmall | hlarge
  · exact ⟨_, [], encodeChar_of_lt hsmall, by simp⟩
  · cases hoctets : String.utf8EncodeChar c with
    | nil =>
        have hlen := String.length_utf8EncodeChar c
        have hpos := c.utf8Size_pos
        rw [hoctets, List.length_nil] at hlen
        omega
    | cons b tail =>
        refine ⟨b, tail, rfl, ?_⟩
        intro d hd
        apply le_toNat_of_mem_encodeChar hlarge
        rw [hoctets]
        exact List.mem_cons_of_mem _ hd

/-- An ASCII octet at the head of written text is its first character. -/
theorem encode_eq_cons_of_lt {t : Text} {b : UInt8} {rest : Octets} (hb : b.toNat < 128)
    (h : encode t = b :: rest) :
    ∃ c s, t = c :: s ∧ c.val.toNat < 128 ∧ b = UInt8.ofNat c.val.toNat ∧ rest = encode s := by
  cases t with
  | nil => exact absurd h (List.cons_ne_nil b rest).symm
  | cons c s =>
      rw [encode_cons] at h
      rcases Nat.lt_or_ge c.val.toNat 128 with hsmall | hlarge
      · rw [encodeChar_of_lt hsmall, List.singleton_append] at h
        obtain ⟨rfl, rfl⟩ := List.cons.inj h
        exact ⟨c, s, rfl, hsmall, rfl, rfl⟩
      · obtain ⟨first, tail, hchar, -⟩ := encodeChar_eq_cons c
        have hfirst : 128 ≤ first.toNat := by
          apply le_toNat_of_mem_encodeChar hlarge
          rw [hchar]
          exact List.mem_cons_self
        rw [hchar, List.cons_append] at h
        obtain ⟨rfl, -⟩ := List.cons.inj h
        omega

/-- **An ASCII octet in written text is an ASCII character of the text.** -/
theorem mem_encode_iff {c : Char} (hc : c.val.toNat < 128) (t : Text) :
    UInt8.ofNat c.val.toNat ∈ encode t ↔ c ∈ t := by
  have hchar : ∀ d : Char, UInt8.ofNat c.val.toNat ∈ String.utf8EncodeChar d ↔ c = d := by
    intro d
    constructor
    · intro h
      have hd : d.val.toNat < 128 := by
        rcases Nat.lt_or_ge d.val.toNat 128 with hd | hd
        · exact hd
        · have hlarge := le_toNat_of_mem_encodeChar hd h
          rw [toNat_octet (by omega)] at hlarge
          omega
      rw [encodeChar_of_lt hd, List.mem_singleton] at h
      have hval := congrArg UInt8.toNat h
      rw [toNat_octet (by omega), toNat_octet (by omega)] at hval
      exact Char.ext (UInt32.toNat_inj.mp hval)
    · intro h
      rw [← h, encodeChar_of_lt hc]
      exact List.mem_singleton_self _
  simp only [encode, List.mem_flatMap, hchar]
  constructor
  · intro h
    obtain ⟨d, hd, rfl⟩ := h
    exact hd
  · intro h
    exact ⟨c, h, rfl⟩

/-- An ASCII character that does not stand in a text has no octet in its UTF-8
form. -/
theorem ne_of_mem_encode {c : Char} {t : Text} (hc : c.val.toNat < 128) (h : c ∉ t) :
    ∀ b ∈ encode t, b ≠ UInt8.ofNat c.val.toNat := by
  intro b hb heq
  exact h ((mem_encode_iff hc t).mp (heq ▸ hb))

/-- **One written character is read back**, whatever follows. -/
theorem decodeFrom_encodeChar (c : Char) (rest : Octets) :
    decodeFrom none (String.utf8EncodeChar c ++ rest) = c :: decodeFrom none rest := by
  have hchar : Char.ofNat c.val.toNat = c := Char.ofNat_toNat c
  have hvalid : c.val.toNat < 0xD800 ∨ 0xDFFF < c.val.toNat ∧ c.val.toNat < 0x110000 := c.valid
  unfold String.utf8EncodeChar
  generalize c.val.toNat = v at hchar hvalid
  simp only
  split
  · simp only [List.cons_append, List.nil_append, decodeFrom, step, fresh]
    rw [lead_one (by omega), hchar]
    rfl
  · split
    · simp only [List.cons_append, List.nil_append, decodeFrom, step, fresh]
      rw [lead_two (by omega) (by omega)]
      simp only [List.nil_append]
      rw [resume_of_mem (by omega) (by simp only; omega) (by simp only; omega)]
      simp only [List.cons_append, List.nil_append]
      rw [show (v / 64 % 32 + 192 - 192) * 64 + (v % 64 + 128 - 128) = v by omega, hchar]
    · split
      · simp only [List.cons_append, List.nil_append, decodeFrom, step, fresh]
        rw [lead_three (by omega) (by omega)]
        simp only [List.nil_append]
        rw [resume_of_mem (by omega) (by simp only; split <;> omega)
          (by simp only; split <;> omega)]
        simp only [List.nil_append]
        rw [resume_of_mem (by omega) (by simp only; omega) (by simp only; omega)]
        simp only [List.cons_append, List.nil_append]
        rw [show ((v / 4096 % 16 + 224 - 224) * 64 + (v / 64 % 64 + 128 - 128)) * 64 +
          (v % 64 + 128 - 128) = v by omega, hchar]
      · simp only [List.cons_append, List.nil_append, decodeFrom, step, fresh]
        rw [lead_four (by omega) (by omega)]
        simp only [List.nil_append]
        rw [resume_of_mem (by omega) (by simp only; split <;> omega)
          (by simp only; split <;> omega)]
        simp only [List.nil_append]
        rw [resume_of_mem (by omega) (by simp only; omega) (by simp only; omega)]
        simp only [List.nil_append]
        rw [resume_of_mem (by omega) (by simp only; omega) (by simp only; omega)]
        simp only [List.cons_append, List.nil_append]
        rw [show (((v / 262144 % 8 + 240 - 240) * 64 + (v / 4096 % 64 + 128 - 128)) * 64 +
          (v / 64 % 64 + 128 - 128)) * 64 + (v % 64 + 128 - 128) = v by omega, hchar]

/-- **Written text is read back, and what follows it is read afresh.** -/
theorem decode_encode_append (t : Text) (rest : Octets) :
    decode (encode t ++ rest) = t ++ decode rest := by
  induction t with
  | nil => rfl
  | cons c t ih =>
    have h := decodeFrom_encodeChar c (encode t ++ rest)
    simp only [decode] at ih ⊢
    rw [encode_cons, List.append_assoc, h, ih, List.cons_append]

/-- Reading undoes writing. -/
theorem decode_encode (t : Text) : decode (encode t) = t := by
  have h := decode_encode_append t []
  simpa [decode, decodeFrom] using h

/-- Different texts have different octets. -/
theorem encode_inj {s t : Text} : encode s = encode t ↔ s = t := by
  constructor
  · intro h
    rw [← decode_encode s, h, decode_encode]
  · exact congrArg encode

/-! ## What decoding cannot add -/

/-- The bits read so far of a longer character, or else the next octet, put it
outside ASCII. -/
def Partial.Long (p : Partial) : Prop :=
  2 ≤ p.value ∨ 0 < p.after ∧ 2 ≤ p.value * 64 + (p.low - 0x80)

/-- An octet that opens a character opens one outside ASCII. -/
theorem long_of_lead {b : UInt8} {p : Partial} (h : lead b = .opens p) : p.Long := by
  unfold lead at h
  simp only at h
  repeat' split at h
  all_goals cases h
  all_goals
    simp only [Partial.Long]
    omega

variable {c : Char} {b : UInt8} {p q : Partial}

/-- A number outside ASCII is no ASCII character; where it is no character at
all it counts as NUL. -/
theorem ofNat_ne {n : Nat} (hn : 128 ≤ n) (hc : c.val.toNat < 128) (hnul : c ≠ '\x00') :
    Char.ofNat n ≠ c := by
  intro h
  by_cases hvalid : n.isValidChar
  · have hval : (Char.ofNat n).val.toNat = n := by
      rw [Char.ofNat, dif_pos hvalid]
      rfl
    rw [← h, hval] at hc
    omega
  · apply hnul
    rw [← h, Char.ofNat, dif_neg hvalid]
    rfl

/-- An octet that is a whole character is its code. -/
theorem lead_of_whole (h : lead b = .whole c) : b = UInt8.ofNat c.val.toNat := by
  unfold lead at h
  simp only at h
  split at h
  · rename_i hb
    cases h
    have hvalid : b.toNat.isValidChar := Or.inl (by omega)
    rw [Char.ofNat, dif_pos hvalid]
    exact (UInt8.ofNat_toNat).symm
  · repeat' split at h
    all_goals cases h

/-- At the start of a character, an octet that gives an ASCII character is this
character. -/
theorem eq_of_mem_fresh (b : UInt8) (hc : c.val.toNat < 128) (hmem : c ∈ (fresh b).1) :
    b = UInt8.ofNat c.val.toNat := by
  unfold fresh at hmem
  cases h : lead b with
  | whole d =>
      rw [h] at hmem
      obtain rfl := List.mem_singleton.mp hmem
      exact lead_of_whole h
  | opens p =>
      rw [h] at hmem
      exact absurd hmem List.not_mem_nil
  | stray =>
      rw [h] at hmem
      obtain rfl := List.mem_singleton.mp hmem
      exact absurd hc (by decide)

/-- What one octet leaves open is a longer character. -/
theorem long_of_fresh (h : (fresh b).2 = some p) : p.Long := by
  unfold fresh at h
  cases hlead : lead b with
  | whole d => simp [hlead] at h
  | opens q =>
      simp only [hlead, Option.some.injEq] at h
      exact h ▸ long_of_lead hlead
  | stray => simp [hlead] at h

/-- **One octet keeps longer characters apart from ASCII**: it gives no ASCII
character but itself, and none is begun behind it. -/
theorem step_long {s : State} (hs : ∀ p, s = some p → p.Long) (hc : c.val.toNat < 128)
    (hnul : c ≠ '\x00') :
    (c ∈ (step s b).1 → b = UInt8.ofNat c.val.toNat) ∧
      ∀ q, (step s b).2 = some q → q.Long := by
  cases s with
  | none => exact ⟨eq_of_mem_fresh b hc, fun q h => long_of_fresh h⟩
  | some p =>
      have hlong := hs p rfl
      unfold step resume
      by_cases hrange : p.low ≤ b.toNat ∧ b.toNat ≤ p.high
      · simp only [if_pos hrange]
        cases hafter : p.after with
        | zero =>
            simp only [Partial.Long, hafter, Nat.lt_irrefl, false_and, or_false] at hlong
            refine ⟨fun hmem => ?_, nofun⟩
            have hvalue := List.mem_singleton.mp hmem
            exact absurd hvalue.symm (ofNat_ne (by omega) hc hnul)
        | succ n =>
            refine ⟨fun hmem => absurd hmem List.not_mem_nil, ?_⟩
            intro q hq
            obtain rfl := Option.some.inj hq
            left
            simp only [Partial.Long] at hlong ⊢
            omega
      · simp only [if_neg hrange]
        refine ⟨fun hmem => ?_, fun q h => long_of_fresh h⟩
        rcases List.mem_cons.mp hmem with rfl | hlater
        · exact absurd hc (by decide)
        · exact eq_of_mem_fresh b hc hlater

/-- The induction is on the octets; whatever is begun in between is long. -/
theorem mem_of_mem_decodeFrom {s : State} {octets : Octets} (hs : ∀ p, s = some p → p.Long)
    (hc : c.val.toNat < 128) (hnul : c ≠ '\x00') (h : c ∈ decodeFrom s octets) :
    UInt8.ofNat c.val.toNat ∈ octets := by
  induction octets generalizing s with
  | nil =>
      cases s with
      | none => exact absurd h List.not_mem_nil
      | some p =>
          obtain rfl := List.mem_singleton.mp h
          exact absurd hc (by decide)
  | cons b octets ih =>
      obtain ⟨hgiven, hnext⟩ := step_long (b := b) hs hc hnul
      rw [decodeFrom, List.mem_append] at h
      rcases h with hhere | hlater
      · rw [hgiven hhere]
        exact List.mem_cons_self
      · exact List.mem_cons_of_mem _ (ih hnext hlater)

/-- **An ASCII character of decoded text was an octet of the data.**  NUL is
left aside. -/
theorem mem_of_mem_decode {octets : Octets} (hc : c.val.toNat < 128) (hnul : c ≠ '\x00')
    (h : c ∈ decode octets) : UInt8.ofNat c.val.toNat ∈ octets :=
  mem_of_mem_decodeFrom (s := none) nofun hc hnul h

end HttpWire.Utf8
