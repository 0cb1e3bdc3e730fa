import EnvFile.Text.Basic

/-! # UTF-8

    Encoding a text as bytes, and decoding bytes to a text with the exact
    place and kind of the first fault.  The decoder takes one byte at a time.
    Between two characters it holds nothing; inside a character it holds an
    `Open` sequence, which says where the character began and which bytes may
    come next.

    Overlong forms, surrogates and code points past `10FFFF` are kept out by
    the range of the second byte alone, so no check is needed once the last
    byte is in. -/

namespace EnvFile.Utf8

/-- Why bytes are no UTF-8.  Indices count bytes from zero. -/
inductive Flaw where
  /-- The `length` bytes from `index` on begin no character that the byte
      after them could continue. -/
  | invalid (index length : Nat)
  /-- The input ends inside the character that begins at `index`. -/
  | incomplete (index : Nat)
deriving DecidableEq, Repr

/-- A character whose last bytes are still to come. -/
structure Open where
  /-- Index of its first byte. -/
  start : Nat
  /-- Number of bytes read so far. -/
  length : Nat
  /-- Number of bytes to come. -/
  missing : Nat
  /-- The bits read so far. -/
  bits : Nat
  /-- The least value the next byte may have. -/
  low : Nat := 0x80
  /-- The greatest value the next byte may have. -/
  high : Nat := 0xBF
deriving DecidableEq, Repr

/-- The sequence that a byte outside ASCII opens, if it may open one. -/
def Open.ofLead? (index byte : Nat) : Option Open :=
  if 0xC2 ≤ byte ∧ byte ≤ 0xDF then
    some { start := index, length := 1, missing := 1, bits := byte % 0x20 }
  else if byte = 0xE0 then
    some { start := index, length := 1, missing := 2, bits := 0, low := 0xA0 }
  else if byte = 0xED then
    some { start := index, length := 1, missing := 2, bits := 0xD, high := 0x9F }
  else if 0xE1 ≤ byte ∧ byte ≤ 0xEF then
    some { start := index, length := 1, missing := 2, bits := byte % 0x10 }
  else if byte = 0xF0 then
    some { start := index, length := 1, missing := 3, bits := 0, low := 0x90 }
  else if byte = 0xF4 then
    some { start := index, length := 1, missing := 3, bits := 4, high := 0x8F }
  else if 0xF1 ≤ byte ∧ byte ≤ 0xF3 then
    some { start := index, length := 1, missing := 3, bits := byte % 8 }
  else
    none

/-- The sequence after one more byte. -/
def Open.push (o : Open) (byte : Nat) : Open :=
  { start := o.start, length := o.length + 1, missing := o.missing - 1,
    bits := o.bits * 0x40 + byte % 0x40 }

/-- Decode from byte number `index` on, inside the sequence `o` if one is
    open. -/
def decodeFrom (index : Nat) : Option Open → List UInt8 → Except Flaw Text
  | none, [] => .ok []
  | some o, [] => .error (.incomplete o.start)
  | none, b :: bs =>
    if b.toNat < 0x80 then
      (decodeFrom (index + 1) none bs).map (Char.ofNat b.toNat :: ·)
    else
      match Open.ofLead? index b.toNat with
      | none => .error (.invalid index 1)
      | some o => decodeFrom (index + 1) (some o) bs
  | some o, b :: bs =>
    if o.low ≤ b.toNat ∧ b.toNat ≤ o.high then
      if o.missing ≤ 1 then
        (decodeFrom (index + 1) none bs).map (Char.ofNat (o.push b.toNat).bits :: ·)
      else
        decodeFrom (index + 1) (some (o.push b.toNat)) bs
    else
      .error (.invalid o.start o.length)

/-- The bytes of a text. -/
def encode (t : Text) : List UInt8 :=
  t.flatMap String.utf8EncodeChar

/-- The text that bytes encode, or the first fault in them. -/
def decode (bytes : List UInt8) : Except Flaw Text :=
  decodeFrom 0 none bytes

/-- What is wrong, in words. -/
def Flaw.message : Flaw → String
  | .invalid index length =>
    s!"invalid utf-8 sequence of {length} bytes from index {index}"
  | .incomplete index => s!"incomplete utf-8 byte sequence from index {index}"

end EnvFile.Utf8
