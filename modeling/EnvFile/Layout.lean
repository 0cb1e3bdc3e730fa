import EnvFile.Banner

/-! # Layouts

    A layout fixes how rows are arranged in a file: the banners of blocks, the
    distance between items, how many rows make a block, and what is left out
    when a file is written. -/

namespace EnvFile

/-- How a file is laid out. -/
structure Layout where
  /-- The form of block banners, both written and recognised. -/
  banner : Banner.Template := {}
  /-- Number of blank lines between items. -/
  blankLines : Nat := 1
  /-- Rows of one group form a block when there are more of them than this. -/
  groupThreshold : Nat := 0
  /-- Leave out the comments of rows and the banners of blocks. -/
  omitComments : Bool := false
  /-- Leave out disabled rows. -/
  omitDisabled : Bool := false
  /-- Leave out shadows. -/
  omitShadows : Bool := false
deriving DecidableEq

instance : Inhabited Layout := ⟨{}⟩

namespace Layout

/-- The number of line feeds between two items.  It is held in a word of 64
    bits, so behind the largest word the count starts again at zero. -/
def feeds (l : Layout) : Nat :=
  (l.blankLines + 1) % UInt64.size

/-- What stands between two items of a file. -/
def separator (l : Layout) : Text :=
  List.replicate l.feeds '\n'

/-- The greatest length of a text, in bytes. -/
def maxLength : Nat :=
  UInt64.size / 2 - 1

/-- The blank lines and the line feed in front of them make a text that is not
    too long. -/
def Separable (l : Layout) : Prop :=
  l.blankLines < maxLength

instance (l : Layout) : Decidable l.Separable :=
  inferInstanceAs (Decidable (_ < _))

theorem Separable.feeds_eq {l : Layout} (h : l.Separable) : l.feeds = l.blankLines + 1 := by
  apply Nat.mod_eq_of_lt
  have := Nat.lt_of_lt_of_le h (by decide : maxLength ≤ UInt64.size - 1)
  omega

end Layout

end EnvFile
