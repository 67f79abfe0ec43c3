/-
  Divachain.Lib.Utf8 — a text survives its bytes.

  `encodeUtf8` is how a text becomes bytes.  `decodeUtf8` reads every
  character of it back (`decodeUtf8_encodeUtf8`): the bytes of a character are
  well formed, whatever follows them.
-/
import Divachain.Lib.Json

namespace DataKit

/-- `Buffer.from(t)`. -/
def encodeUtf8 (t : List Char) : List UInt8 := t.flatMap String.utf8EncodeChar

/-! ## §1. One byte. -/

theorem toNat_ofNat {n : Nat} (h : n < 256) : (UInt8.ofNat n).toNat = n := by
  rw [UInt8.toNat_ofNat']
  exact Nat.mod_eq_of_lt h

/-- A byte that starts a character of several bytes. -/
theorem decodeUtf8From_lead {b : Nat} {s : Utf8State} (hb : b < 256) (h : utf8Lead b = .inr s)
    (bs : List UInt8) :
    decodeUtf8From none (UInt8.ofNat b :: bs) = decodeUtf8From (some s) bs := by
  rw [decodeUtf8From, toNat_ofNat hb, h]

/-- A byte in the middle of a character. -/
theorem decodeUtf8From_next {needed code lower upper b : Nat} (hb : b < 256) (hlo : lower ≤ b)
    (hhi : b ≤ upper) (hmore : needed ≠ 1) (bs : List UInt8) :
    decodeUtf8From (some ⟨needed, code, lower, upper⟩) (UInt8.ofNat b :: bs)
      = decodeUtf8From (some ⟨needed - 1, code * 64 + (b - 0x80), 0x80, 0xBF⟩) bs := by
  rw [decodeUtf8From, toNat_ofNat hb, if_pos ⟨hlo, hhi⟩]
  exact if_neg hmore

/-- The last byte of a character. -/
theorem decodeUtf8From_last {code lower upper b : Nat} (hb : b < 256) (hlo : lower ≤ b)
    (hhi : b ≤ upper) (bs : List UInt8) :
    decodeUtf8From (some ⟨1, code, lower, upper⟩) (UInt8.ofNat b :: bs)
      = Char.ofNat (code * 64 + (b - 0x80)) :: decodeUtf8From none bs := by
  rw [decodeUtf8From, toNat_ofNat hb, if_pos ⟨hlo, hhi⟩]
  exact if_pos rfl

/-! ## §2. What starts a character. -/

theorem utf8Lead_two {b : Nat} (hlo : 0xC2 ≤ b) (hhi : b ≤ 0xDF) :
    utf8Lead b = .inr ⟨1, b - 0xC0, 0x80, 0xBF⟩ := by
  unfold utf8Lead
  rw [if_neg (by omega), if_pos ⟨hlo, hhi⟩]

/-- With three bytes the second one excludes what two bytes hold, and surrogates. -/
theorem utf8Lead_three {b : Nat} (hlo : 0xE0 ≤ b) (hhi : b ≤ 0xEF) :
    utf8Lead b = .inr ⟨2, b - 0xE0, if b = 0xE0 then 0xA0 else 0x80,
      if b = 0xED then 0x9F else 0xBF⟩ := by
  unfold utf8Lead
  rw [if_neg (by omega), if_neg (by omega)]
  by_cases hfirst : b = 0xE0
  · subst hfirst
    rfl
  by_cases hsurrogate : b = 0xED
  · subst hsurrogate
    rfl
  rw [if_neg hfirst, if_neg hsurrogate, if_pos (by omega), if_neg hfirst, if_neg hsurrogate]

/-- With four bytes it excludes what three bytes hold, and what is no character. -/
theorem utf8Lead_four {b : Nat} (hlo : 0xF0 ≤ b) (hhi : b ≤ 0xF4) :
    utf8Lead b = .inr ⟨3, b - 0xF0, if b = 0xF0 then 0x90 else 0x80,
      if b = 0xF4 then 0x8F else 0xBF⟩ := by
  unfold utf8Lead
  rw [if_neg (by omega), if_neg (by omega), if_neg (by omega), if_neg (by omega),
    if_neg (by omega)]
  by_cases hfirst : b = 0xF0
  · subst hfirst
    rfl
  by_cases hlast : b = 0xF4
  · subst hlast
    rfl
  rw [if_neg hfirst, if_pos (by omega), if_neg hfirst, if_neg hlast]

/-! ## §3. One character. -/

/-- **A character is read back**, whatever follows it. -/
theorem decodeUtf8From_encodeChar (c : Char) (bs : List UInt8) :
    decodeUtf8From none (String.utf8EncodeChar c ++ bs) = c :: decodeUtf8From none bs := by
  have hvalid : c.val.toNat < 0xD800 ∨ (0xDFFF < c.val.toNat ∧ c.val.toNat < 0x110000) := c.valid
  have hc : Char.ofNat c.val.toNat = c := Char.ofNat_toNat c
  unfold String.utf8EncodeChar
  dsimp only
  generalize c.val.toNat = v at hvalid hc ⊢
  subst hc
  -- One case for each number of bytes; every byte after the first adds six bits.
  split
  next hone =>
    have hlead : utf8Lead v = .inl (Char.ofNat v) := if_pos hone
    rw [List.singleton_append, decodeUtf8From, toNat_ofNat (by omega), hlead]
  split
  next htwo =>
    have hlead := utf8Lead_two (b := v / 64 % 0x20 + 0xc0) (by omega) (by omega)
    rw [List.cons_append, List.singleton_append, decodeUtf8From_lead (by omega) hlead,
      decodeUtf8From_last (by omega) (by omega) (by omega)]
    have hcode : (v / 64 % 0x20 + 0xc0 - 0xC0) * 64 + (v % 0x40 + 0x80 - 0x80) = v := by omega
    rw [hcode]
  split
  next hthree =>
    -- Surrogates are no characters, so the bounds on the second byte hold.
    have hlead := utf8Lead_three (b := v / 4096 % 0x10 + 0xe0) (by omega) (by omega)
    rw [List.cons_append, List.cons_append, List.singleton_append,
      decodeUtf8From_lead (by omega) hlead,
      decodeUtf8From_next (by omega) (by split <;> omega) (by split <;> omega) (by omega),
      decodeUtf8From_last (by omega) (by omega) (by omega)]
    have hcode : ((v / 4096 % 0x10 + 0xe0 - 0xE0) * 64 + (v / 64 % 0x40 + 0x80 - 0x80)) * 64
        + (v % 0x40 + 0x80 - 0x80) = v := by omega
    rw [hcode]
  next hfour =>
    have hlead := utf8Lead_four (b := v / 262144 % 0x08 + 0xf0) (by omega) (by omega)
    rw [List.cons_append, List.cons_append, List.cons_append, List.singleton_append,
      decodeUtf8From_lead (by omega) hlead,
      decodeUtf8From_next (by omega) (by split <;> omega) (by split <;> omega) (by omega),
      decodeUtf8From_next (by omega) (by omega) (by omega) (by omega),
      decodeUtf8From_last (by omega) (by omega) (by omega)]
    have hcode : (((v / 262144 % 0x08 + 0xf0 - 0xF0) * 64 + (v / 4096 % 0x40 + 0x80 - 0x80)) * 64
        + (v / 64 % 0x40 + 0x80 - 0x80)) * 64 + (v % 0x40 + 0x80 - 0x80) = v := by omega
    rw [hcode]

/-- **A text is read back from its bytes.** -/
theorem decodeUtf8_encodeUtf8 (t : List Char) : decodeUtf8 (encodeUtf8 t) = t := by
  unfold decodeUtf8 encodeUtf8
  induction t with
  | nil => rfl
  | cons c t ih => rw [List.flatMap_cons, decodeUtf8From_encodeChar, ih]

end DataKit
