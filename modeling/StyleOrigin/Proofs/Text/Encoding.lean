import StyleOrigin.Text.Utf8

/-! # Texts as bytes

Each text has its bytes in UTF-8, and they are read as this text.

* `Utf8.encode`: the bytes of a text.
* `Utf8.decode_encode`: the text of its bytes.
-/
set_option autoImplicit false

namespace StyleOrigin.Utf8

/-- The bytes of a text. -/
def encode (text : Text) : List UInt8 :=
  text.flatMap String.utf8EncodeChar

/-! ## Bytes by their numbers -/

section Numbers
variable {n : Nat}

theorem toNat_ofNat (h : n < 256) : (UInt8.ofNat n).toNat = n :=
  (UInt8.toNat_ofNat').trans (Nat.mod_eq_of_lt h)

theorem ofNat_lt_iff (h : n < 256) (bound : UInt8) : UInt8.ofNat n < bound ↔ n < bound.toNat := by
  rw [UInt8.lt_iff_toNat_lt, toNat_ofNat h]

theorem ofNat_eq_iff (h : n < 256) (other : UInt8) : UInt8.ofNat n = other ↔ n = other.toNat := by
  rw [← UInt8.toNat_inj, toNat_ofNat h]

/-- What the start byte of a sequence asks for, by its number. -/
theorem continuations_ofNat (h : n < 256) :
    continuations? (UInt8.ofNat n) =
      if n < 0x80 then some (0, 0x80, 0xBF)
      else if n < 0xC2 then none
      else if n < 0xE0 then some (1, 0x80, 0xBF)
      else if n = 0xE0 then some (2, 0xA0, 0xBF)
      else if n = 0xED then some (2, 0x80, 0x9F)
      else if n < 0xF0 then some (2, 0x80, 0xBF)
      else if n = 0xF0 then some (3, 0x90, 0xBF)
      else if n < 0xF4 then some (3, 0x80, 0xBF)
      else if n = 0xF4 then some (3, 0x80, 0x8F)
      else none := by
  simp only [continuations?, ofNat_lt_iff h, ofNat_eq_iff h]
  rfl

end Numbers

/-! ## One byte -/

section Bytes
variable {offset n : Nat} {bytes rest : List UInt8} {bits : Nat} {low high : UInt8}

theorem decodeFrom_start {count : Nat}
    (hcount : continuations? (UInt8.ofNat n) = some (count + 1, low, high)) :
    decodeFrom offset none (UInt8.ofNat n :: rest) =
      decodeFrom (offset + 1) (some ⟨[UInt8.ofNat n], startBits (count + 1) (UInt8.ofNat n),
        count + 1, low, high⟩) rest := by
  rw [decodeFrom, hcount]
  rfl

theorem inRange (hn : n < 256) (hlow : low.toNat ≤ n) (hhigh : n ≤ high.toNat) :
    (low ≤ UInt8.ofNat n && UInt8.ofNat n ≤ high) = true := by
  simp only [Bool.and_eq_true, decide_eq_true_eq, UInt8.le_iff_toNat_le, toNat_ofNat hn]
  exact ⟨hlow, hhigh⟩

theorem decodeFrom_middle {missing : Nat} (hn : n < 256) (hlow : low.toNat ≤ n)
    (hhigh : n ≤ high.toNat) :
    decodeFrom offset (some ⟨bytes, bits, missing + 2, low, high⟩) (UInt8.ofNat n :: rest) =
      decodeFrom (offset + 1) (some ⟨UInt8.ofNat n :: bytes, bits * 64 + (n - 0x80), missing + 1,
        0x80, 0xBF⟩) rest := by
  rw [decodeFrom, if_pos (inRange hn hlow hhigh), toNat_ofNat hn]
  rfl

/-- The last byte of a sequence, which carries the last six bits of a code point. -/
theorem decodeFrom_last {code : Nat} (hbits : bits = code / 64) (hlow : low.toNat ≤ code % 64 + 128)
    (hhigh : code % 64 + 128 ≤ high.toNat) :
    decodeFrom offset (some ⟨bytes, bits, 1, low, high⟩) (UInt8.ofNat (code % 64 + 128) :: rest) =
      (Char.ofNat code :: ·) <$> decodeFrom (offset + 1) none rest := by
  have hcode : bits * 64 + (code % 64 + 128 - 0x80) = code := by omega
  rw [decodeFrom, if_pos (inRange (by omega) hlow hhigh), toNat_ofNat (by omega)]
  simp only [hcode, if_true]

end Bytes

/-! ## One character -/

section Sequences
variable {code : Nat} (offset : Nat) (rest : List UInt8)

theorem decodeFrom_one (h : code < 0x80) :
    decodeFrom offset none (UInt8.ofNat code :: rest) =
      (Char.ofNat code :: ·) <$> decodeFrom (offset + 1) none rest := by
  have hstart : continuations? (UInt8.ofNat code) = some (0, 0x80, 0xBF) := by
    rw [continuations_ofNat (by omega), if_pos h]
  rw [decodeFrom, hstart]
  simp only [toNat_ofNat (show code < 256 by omega)]

theorem startBits_one (start : UInt8) : startBits 1 start = start.toNat - 0xC0 := rfl
theorem startBits_two (start : UInt8) : startBits 2 start = start.toNat - 0xE0 := rfl
theorem startBits_three (start : UInt8) : startBits 3 start = start.toNat - 0xF0 := rfl

theorem low_le (n : Nat) : (0x80 : UInt8).toNat ≤ n % 64 + 128 := by
  rw [show (0x80 : UInt8).toNat = 128 from rfl]
  omega

theorem le_high (n : Nat) : n % 64 + 128 ≤ (0xBF : UInt8).toNat := by
  rw [show (0xBF : UInt8).toNat = 191 from rfl]
  omega

theorem decodeFrom_two (hlow : 0x80 ≤ code) (hhigh : code < 0x800) :
    decodeFrom offset none
        (UInt8.ofNat (code / 64 % 32 + 192) :: UInt8.ofNat (code % 64 + 128) :: rest) =
      (Char.ofNat code :: ·) <$> decodeFrom (offset + 2) none rest := by
  have hstart : continuations? (UInt8.ofNat (code / 64 % 32 + 192)) = some (0 + 1, 0x80, 0xBF) := by
    rw [continuations_ofNat (by omega), if_neg (by omega), if_neg (by omega), if_pos (by omega)]
  have hnumber : (UInt8.ofNat (code / 64 % 32 + 192)).toNat = code / 64 % 32 + 192 :=
    toNat_ofNat (by omega)
  have hbits : startBits (0 + 1) (UInt8.ofNat (code / 64 % 32 + 192)) = code / 64 := by
    rw [startBits_one, hnumber]
    omega
  rw [decodeFrom_start hstart, decodeFrom_last hbits (low_le code) (le_high code)]

theorem decodeFrom_three (hlow : 0x800 ≤ code) (hhigh : code < 0x10000)
    (hsurrogate : code < 0xD800 ∨ 0xDFFF < code) :
    decodeFrom offset none (UInt8.ofNat (code / 4096 % 16 + 224) ::
        UInt8.ofNat (code / 64 % 64 + 128) :: UInt8.ofNat (code % 64 + 128) :: rest) =
      (Char.ofNat code :: ·) <$> decodeFrom (offset + 3) none rest := by
  obtain ⟨low, high, hstart, hleast, hmost⟩ : ∃ low high,
      continuations? (UInt8.ofNat (code / 4096 % 16 + 224)) = some (1 + 1, low, high) ∧
        low.toNat ≤ code / 64 % 64 + 128 ∧ code / 64 % 64 + 128 ≤ high.toNat := by
    rw [continuations_ofNat (by omega), if_neg (by omega), if_neg (by omega), if_neg (by omega)]
    split
    · refine ⟨0xA0, 0xBF, rfl, ?_, le_high _⟩
      rw [show (0xA0 : UInt8).toNat = 160 from rfl]
      omega
    · split
      · refine ⟨0x80, 0x9F, rfl, low_le _, ?_⟩
        rw [show (0x9F : UInt8).toNat = 159 from rfl]
        omega
      · rw [if_pos (by omega)]
        exact ⟨0x80, 0xBF, rfl, low_le _, le_high _⟩
  have hnumber : (UInt8.ofNat (code / 4096 % 16 + 224)).toNat = code / 4096 % 16 + 224 :=
    toNat_ofNat (by omega)
  have hbits : startBits (1 + 1) (UInt8.ofNat (code / 4096 % 16 + 224)) * 64 +
      (code / 64 % 64 + 128 - 0x80) = code / 64 := by
    rw [startBits_two, hnumber]
    omega
  rw [decodeFrom_start hstart, decodeFrom_middle (by omega) hleast hmost,
    decodeFrom_last hbits (low_le code) (le_high code)]

theorem decodeFrom_four (hlow : 0x10000 ≤ code) (hhigh : code < 0x110000) :
    decodeFrom offset none (UInt8.ofNat (code / 262144 % 8 + 240) ::
        UInt8.ofNat (code / 4096 % 64 + 128) :: UInt8.ofNat (code / 64 % 64 + 128) ::
          UInt8.ofNat (code % 64 + 128) :: rest) =
      (Char.ofNat code :: ·) <$> decodeFrom (offset + 4) none rest := by
  obtain ⟨low, high, hstart, hleast, hmost⟩ : ∃ low high,
      continuations? (UInt8.ofNat (code / 262144 % 8 + 240)) = some (2 + 1, low, high) ∧
        low.toNat ≤ code / 4096 % 64 + 128 ∧ code / 4096 % 64 + 128 ≤ high.toNat := by
    rw [continuations_ofNat (by omega), if_neg (by omega), if_neg (by omega), if_neg (by omega),
      if_neg (by omega), if_neg (by omega), if_neg (by omega)]
    split
    · refine ⟨0x90, 0xBF, rfl, ?_, le_high _⟩
      rw [show (0x90 : UInt8).toNat = 144 from rfl]
      omega
    · split
      · exact ⟨0x80, 0xBF, rfl, low_le _, le_high _⟩
      · rw [if_pos (by omega)]
        refine ⟨0x80, 0x8F, rfl, low_le _, ?_⟩
        rw [show (0x8F : UInt8).toNat = 143 from rfl]
        omega
  have hnumber : (UInt8.ofNat (code / 262144 % 8 + 240)).toNat = code / 262144 % 8 + 240 :=
    toNat_ofNat (by omega)
  have hbits : (startBits (2 + 1) (UInt8.ofNat (code / 262144 % 8 + 240)) * 64 +
      (code / 4096 % 64 + 128 - 0x80)) * 64 + (code / 64 % 64 + 128 - 0x80) = code / 64 := by
    rw [startBits_three, hnumber]
    omega
  rw [decodeFrom_start hstart, decodeFrom_middle (by omega) hleast hmost,
    decodeFrom_middle (by omega) (low_le _) (le_high _),
    decodeFrom_last hbits (low_le code) (le_high code)]

end Sequences

/-- The bytes of a character are read as this character, and reading goes on behind them. -/
theorem decodeFrom_utf8EncodeChar (c : Char) (offset : Nat) (rest : List UInt8) :
    ∃ behind, decodeFrom offset none (String.utf8EncodeChar c ++ rest) =
      (c :: ·) <$> decodeFrom behind none rest := by
  have hvalid : c.toNat < 0xD800 ∨ 0xDFFF < c.toNat ∧ c.toNat < 0x110000 := c.valid
  have hc : Char.ofNat c.toNat = c := Char.ofNat_toNat c
  have hcode : c.val.toNat = c.toNat := rfl
  simp only [String.utf8EncodeChar, hcode]
  split
  · have hone : c.toNat < 0x80 := by omega
    exact ⟨_, hc ▸ decodeFrom_one offset rest hone⟩
  split
  · have htwo : 0x80 ≤ c.toNat ∧ c.toNat < 0x800 := by omega
    exact ⟨_, hc ▸ decodeFrom_two offset rest htwo.1 htwo.2⟩
  split
  · have hthree : 0x800 ≤ c.toNat ∧ c.toNat < 0x10000 := by omega
    have hsurrogate : c.toNat < 0xD800 ∨ 0xDFFF < c.toNat := hvalid.imp_right And.left
    exact ⟨_, hc ▸ decodeFrom_three offset rest hthree.1 hthree.2 hsurrogate⟩
  · have hfour : 0x10000 ≤ c.toNat ∧ c.toNat < 0x110000 := by omega
    exact ⟨_, hc ▸ decodeFrom_four offset rest hfour.1 hfour.2⟩

/-! ## Texts -/

theorem decodeFrom_encode (text : Text) (offset : Nat) : decodeFrom offset none (encode text) = .ok text := by
  induction text generalizing offset with
  | nil => rfl
  | cons c cs ih =>
    obtain ⟨behind, hbehind⟩ := decodeFrom_utf8EncodeChar c offset (encode cs)
    rw [encode, List.flatMap_cons, ← encode, hbehind, ih]
    rfl

/-- The bytes of a text are read as the text. -/
theorem decode_encode (text : Text) : decode (encode text) = .ok text :=
  decodeFrom_encode text 0

end StyleOrigin.Utf8
