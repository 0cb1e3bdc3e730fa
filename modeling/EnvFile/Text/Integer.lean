import EnvFile.Text.Basic

/-! # Integers in decimal

    Reading and writing the integers of a signed 64-bit word.  A text may
    carry a sign of either kind and leading zeros; the written form has
    neither a plus sign nor leading zeros, and there is one for each integer
    (`read?_write`). -/

namespace EnvFile.Integer

/-- The least integer of a signed 64-bit word. -/
def least : Int := -9223372036854775808

/-- The greatest integer of a signed 64-bit word. -/
def greatest : Int := 9223372036854775807

/-- The number that one or more decimal digits denote. -/
def digits? (t : Text) : Option Nat :=
  if t ≠ [] ∧ t.all Char.isDigit then some (Nat.ofDigitChars 10 t 0) else none

/-- The integer that an optional sign and digits denote. -/
def signed? : Text → Option Int
  | '-' :: t => (digits? t).map fun n : Nat => -(n : Int)
  | '+' :: t => (digits? t).map fun n : Nat => (n : Int)
  | t => (digits? t).map fun n : Nat => (n : Int)

/-- The integer that a text denotes, if it fits a signed 64-bit word. -/
def read? (t : Text) : Option Int :=
  (signed? t).filter fun n => least ≤ n ∧ n ≤ greatest

/-- The canonical decimal text of an integer. -/
def write (n : Int) : Text :=
  if n < 0 then '-' :: Nat.toDigits 10 n.natAbs else Nat.toDigits 10 n.natAbs

/-! ## Reading what was written -/

theorem isDigit_of_mem_toDigits {n : Nat} {c : Char} (h : c ∈ Nat.toDigits 10 n) :
    c.isDigit = true :=
  Nat.isDigit_of_mem_toDigits (by decide) (by decide) h

theorem digits?_toDigits (n : Nat) : digits? (Nat.toDigits 10 n) = some n := by
  have all : (Nat.toDigits 10 n).all Char.isDigit = true :=
    List.all_eq_true.2 fun _ h => isDigit_of_mem_toDigits h
  rw [digits?, if_pos ⟨Nat.toDigits_ne_nil, all⟩,
    Nat.ofDigitChars_toDigits (by decide) (by decide)]

theorem signed?_of_digits {t : Text} {n : Nat} (h : digits? t = some n) :
    signed? t = some (n : Int) := by
  match t with
  | [] => simp [digits?] at h
  | c :: t =>
    have hc : c.isDigit = true := by
      cases hc : c.isDigit with
      | true => rfl
      | false => simp [digits?, hc] at h
    rw [signed?, h]
    · rfl
    · rintro t' h'; cases h'; exact absurd hc (by decide)
    · rintro t' h'; cases h'; exact absurd hc (by decide)

theorem signed?_write (n : Int) : signed? (write n) = some n := by
  by_cases h : n < 0
  · have : -((n.natAbs : Nat) : Int) = n := by omega
    rw [write, if_pos h, signed?, digits?_toDigits, Option.map_some, this]
  · have : ((n.natAbs : Nat) : Int) = n := by omega
    rw [write, if_neg h, signed?_of_digits (digits?_toDigits n.natAbs), this]

/-- An integer of the word is read back from its written form. -/
theorem read?_write {n : Int} (lo : least ≤ n) (hi : n ≤ greatest) : read? (write n) = some n := by
  simp [read?, signed?_write, Option.filter, lo, hi]

end EnvFile.Integer
