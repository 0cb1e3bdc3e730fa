import EnvFile.Text.Basic

/-! # Blank characters

    Three classes of blank characters matter in a file of variables:

    * `isBlank`: the characters with the Unicode property `White_Space`;
    * `isAsciiBlank`: the ASCII blanks that may stand before a statement;
    * `isGap`: space and tab, which may stand between a separator and a value.

    Each class contains the one after it (`isBlank_of_isAsciiBlank`,
    `isAsciiBlank_of_isGap`). -/

namespace EnvFile

/-- The characters with the Unicode property `White_Space`. -/
def isBlank (c : Char) : Bool :=
  let n := c.toNat
  (0x09 ≤ n && n ≤ 0x0D) || n == 0x20 || n == 0x85 || n == 0xA0 || n == 0x1680 ||
    (0x2000 ≤ n && n ≤ 0x200A) || n == 0x2028 || n == 0x2029 || n == 0x202F ||
    n == 0x205F || n == 0x3000

/-- Space, tab, line feed, form feed and carriage return. -/
def isAsciiBlank (c : Char) : Bool :=
  c == ' ' || c == '\t' || c == '\n' || c == '\x0c' || c == '\r'

/-- Space and tab. -/
def isGap (c : Char) : Bool :=
  c == ' ' || c == '\t'

theorem isAsciiBlank_of_isGap {c : Char} (h : isGap c = true) : isAsciiBlank c = true := by
  simp only [isGap, Bool.or_eq_true, beq_iff_eq] at h
  rcases h with rfl | rfl <;> decide

theorem isBlank_of_isAsciiBlank {c : Char} (h : isAsciiBlank c = true) : isBlank c = true := by
  simp only [isAsciiBlank, Bool.or_eq_true, beq_iff_eq] at h
  rcases h with (((rfl | rfl) | rfl) | rfl) | rfl <;> decide

/-- A text without the blanks at its two ends. -/
def Text.trim (t : Text) : Text :=
  t.strip isBlank

end EnvFile
