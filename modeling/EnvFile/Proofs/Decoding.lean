import EnvFile.Folder
import EnvFile.Proofs.EncodedText

/-! # Decoding what was encoded

    The decoder takes the bytes of a text one at a time.  The first byte of a
    character opens a sequence of which the number of bytes and the leading
    bits are known, and each further byte brings six bits.

    * `Utf8.decode_encode`: decoding is a left inverse of encoding.
    * `Folder.rowsOf_save`: what is read in a folder after a save. -/

namespace EnvFile

namespace Utf8

/-! ## The first byte of a character -/

namespace Open

variable (index : Nat)

theorem ofLead?_two {x : Nat} (large : 2 ≤ x) (hx : x < 32) :
    ofLead? index (x + 192) = some { start := index, length := 1, missing := 1, bits := x } := by
  unfold ofLead?
  rw [if_pos (by omega), show (x + 192) % 0x20 = x by omega]

theorem ofLead?_three {x : Nat} (hx : x < 16) :
    ofLead? index (x + 224) =
      some { start := index, length := 1, missing := 2, bits := x,
             low := if x = 0 then 0xA0 else 0x80, high := if x = 13 then 0x9F else 0xBF } := by
  have cases : x = 0 ∨ x = 13 ∨ (x ≠ 0 ∧ x ≠ 13) := by omega
  rcases cases with rfl | rfl | ⟨first, surrogate⟩
  · rfl
  · rfl
  · unfold ofLead?
    rw [if_neg (by omega), if_neg (by omega), if_neg (by omega), if_pos (by omega), if_neg first,
      if_neg surrogate, show (x + 224) % 0x10 = x by omega]

theorem ofLead?_four {x : Nat} (hx : x < 5) :
    ofLead? index (x + 240) =
      some { start := index, length := 1, missing := 3, bits := x,
             low := if x = 0 then 0x90 else 0x80, high := if x = 4 then 0x8F else 0xBF } := by
  have cases : x = 0 ∨ x = 1 ∨ x = 2 ∨ x = 3 ∨ x = 4 := by omega
  rcases cases with rfl | rfl | rfl | rfl | rfl <;> rfl

end Open

/-! ## One byte after the other -/

section Bytes

variable {index x : Nat} {o : Open} {bs : List UInt8}

theorem decodeFrom_lead (other : 128 ≤ x) (byte : x < 256) (h : Open.ofLead? index x = some o) :
    decodeFrom index none (UInt8.ofNat x :: bs) = decodeFrom (index + 1) (some o) bs := by
  rw [decodeFrom, UInt8.toNat_ofNat_of_lt' byte, if_neg (by omega), h]

/-- A byte inside a character brings six bits. -/
theorem decodeFrom_next (hx : x < 64) (low : o.low ≤ x + 128) (high : x + 128 ≤ o.high)
    (more : 1 < o.missing) :
    decodeFrom index (some o) (UInt8.ofNat (x + 128) :: bs) =
      decodeFrom (index + 1)
        (some { start := o.start, length := o.length + 1, missing := o.missing - 1,
                bits := o.bits * 64 + x }) bs := by
  have byte : x + 128 < 256 := by omega
  rw [decodeFrom, UInt8.toNat_ofNat_of_lt' byte, if_pos ⟨low, high⟩, if_neg (by omega), Open.push,
    show (x + 128) % 0x40 = x by omega]

/-- The last byte of a character ends it. -/
theorem decodeFrom_last (hx : x < 64) (low : o.low ≤ x + 128) (high : x + 128 ≤ o.high)
    (last : o.missing ≤ 1) :
    decodeFrom index (some o) (UInt8.ofNat (x + 128) :: bs) =
      (decodeFrom (index + 1) none bs).map (Char.ofNat (o.bits * 64 + x) :: ·) := by
  have byte : x + 128 < 256 := by omega
  rw [decodeFrom, UInt8.toNat_ofNat_of_lt' byte, if_pos ⟨low, high⟩, if_pos last, Open.push,
    show (x + 128) % 0x40 = x by omega]

/-! ## Whole characters -/

/-- A character of two bytes. -/
theorem decodeFrom_two {a b : Nat} (large : 2 ≤ a) (ha : a < 32) (hb : b < 64) :
    decodeFrom index none (UInt8.ofNat (a + 192) :: UInt8.ofNat (b + 128) :: bs) =
      (decodeFrom (index + 2) none bs).map (Char.ofNat (a * 64 + b) :: ·) := by
  rw [decodeFrom_lead (by omega) (by omega) (Open.ofLead?_two index large ha),
    decodeFrom_last hb (by simp) (by simp; omega) (by simp)]

/-- A character of three bytes.  It is not one that two bytes could hold, and
    no half of a pair. -/
theorem decodeFrom_three {a b c : Nat} (ha : a < 16) (hb : b < 64) (hc : c < 64)
    (long : a = 0 → 32 ≤ b) (plain : a = 13 → b < 32) :
    decodeFrom index none
        (UInt8.ofNat (a + 224) :: UInt8.ofNat (b + 128) :: UInt8.ofNat (c + 128) :: bs) =
      (decodeFrom (index + 3) none bs).map (Char.ofNat ((a * 64 + b) * 64 + c) :: ·) := by
  have low : (if a = 0 then 0xA0 else 0x80) ≤ b + 128 := by split <;> omega
  have high : b + 128 ≤ if a = 13 then 0x9F else 0xBF := by split <;> omega
  rw [decodeFrom_lead (by omega) (by omega) (Open.ofLead?_three index ha),
    decodeFrom_next hb low high (by simp), decodeFrom_last hc (by simp) (by simp; omega) (by simp)]

/-- A character of four bytes.  It is not one that three bytes could hold, and
    not beyond the last. -/
theorem decodeFrom_four {a b c d : Nat} (ha : a < 5) (hb : b < 64) (hc : c < 64) (hd : d < 64)
    (long : a = 0 → 16 ≤ b) (small : a = 4 → b < 16) :
    decodeFrom index none (UInt8.ofNat (a + 240) :: UInt8.ofNat (b + 128) ::
        UInt8.ofNat (c + 128) :: UInt8.ofNat (d + 128) :: bs) =
      (decodeFrom (index + 4) none bs).map
        (Char.ofNat (((a * 64 + b) * 64 + c) * 64 + d) :: ·) := by
  have low : (if a = 0 then 0x90 else 0x80) ≤ b + 128 := by split <;> omega
  have high : b + 128 ≤ if a = 4 then 0x8F else 0xBF := by split <;> omega
  rw [decodeFrom_lead (by omega) (by omega) (Open.ofLead?_four index ha),
    decodeFrom_next hb low high (by simp), decodeFrom_next hc (by simp) (by simp; omega) (by simp),
    decodeFrom_last hd (by simp) (by simp; omega) (by simp)]

end Bytes

/-- The bytes of a character are decoded to the character, whatever follows. -/
theorem decodeFrom_encodeChar (c : Char) (index : Nat) (bs : List UInt8) :
    ∃ next, decodeFrom index none (String.utf8EncodeChar c ++ bs) =
      (decodeFrom next none bs).map (c :: ·) := by
  have valid : c.val.toNat < 0xD800 ∨ 0xDFFF < c.val.toNat ∧ c.val.toNat < 0x110000 := c.valid
  have own : Char.ofNat c.val.toNat = c := Char.ofNat_toNat c
  rw [String.utf8EncodeChar.eq_def]
  generalize c.val.toNat = v at *
  -- by the number of bytes; their bits make the number of the character again
  dsimp only
  split
  · refine ⟨index + 1, ?_⟩
    rw [List.singleton_append, decodeFrom, UInt8.toNat_ofNat_of_lt' (by omega : v < 256),
      if_pos (by omega), own]
  · split
    · have bits : v / 64 % 32 * 64 + v % 64 = v := by omega
      refine ⟨index + 2, ?_⟩
      rw [List.cons_append, List.singleton_append,
        decodeFrom_two (by omega) (by omega) (by omega), bits, own]
    · split
      · have bits : (v / 4096 % 16 * 64 + v / 64 % 64) * 64 + v % 64 = v := by omega
        refine ⟨index + 3, ?_⟩
        rw [List.cons_append, List.cons_append, List.singleton_append,
          decodeFrom_three (by omega) (by omega) (by omega) (by omega) (by omega), bits, own]
      · have bits :
            ((v / 262144 % 8 * 64 + v / 4096 % 64) * 64 + v / 64 % 64) * 64 + v % 64 = v := by
          omega
        refine ⟨index + 4, ?_⟩
        rw [List.cons_append, List.cons_append, List.cons_append, List.singleton_append,
          decodeFrom_four (by omega) (by omega) (by omega) (by omega) (by omega) (by omega),
          bits, own]

/-- **What was encoded is decoded again.** -/
theorem decode_encode (t : Text) : decode (encode t) = .ok t := by
  suffices ∀ index, decodeFrom index none (encode t) = .ok t from this 0
  induction t with
  | nil => exact fun _ => rfl
  | cons c t ih =>
    intro index
    obtain ⟨next, h⟩ := decodeFrom_encodeChar c index (encode t)
    rw [encode_cons, h, ih]
    rfl

/-- A byte that begins no character, a byte that cannot stand where it stands
    inside a character, and an end inside a character. -/
example : decode [0x41, 0xFF, 0x42] = .error (.invalid 1 1) ∧
    decode [0xE2, 0x82, 0x41] = .error (.invalid 0 2) ∧
    decode [0x41, 0xF0, 0x9F, 0x98] = .error (.incomplete 1) := by decide

end Utf8

/-! ## Files -/

theorem RowSet.ofBytes_encode (layout : Layout) (t : Text) :
    ofBytes layout (Utf8.encode t) = ofText layout t := by
  unfold ofBytes
  rw [Utf8.decode_encode]

/-- **A save changes one file.**  It holds what is written of the document, and
    the other files are read as before. -/
theorem Folder.rowsOf_save {written : Layout} {d : Document} {t : Text}
    (h : d.render? written = some t) (folder : Folder) (path : Text) (layout : Layout)
    (file : Text) :
    (folder.save written path d).rowsOf layout file =
      if path = file then RowSet.ofText layout t else folder.rowsOf layout file := by
  unfold save rowsOf
  rw [h]
  dsimp only
  rw [Dictionary.get?_set]
  by_cases same : path = file
  · rw [if_pos same, if_pos same]
    exact RowSet.ofBytes_encode layout t
  · rw [if_neg same, if_neg same]

end EnvFile
