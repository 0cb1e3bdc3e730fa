import EnvFile.Text.Utf8

/-! # Scanning bytes

    A file can also be cut into its segments in one pass over its bytes, without
    decoding it and without cutting it into lines first.  A *scanner* stands at a
    byte of the file.  It looks for the end of the segment that begins there,
    takes the bytes up to that end, and goes on behind the line feed that ends
    the segment.

    A text may be cut where one of its characters begins, and at its end.  A cut
    elsewhere is a fault (`BadCut`), and so is one out of bounds.  Lines are
    counted in a word of 32 bits, which wraps around; with fewer than `2 ^ 32`
    lines it can do so behind the last of them only, where nothing reads it. -/

namespace EnvFile

/-! ## Bytes of a text -/

namespace Bytes

/-- The byte of one of these ASCII characters. -/
def isOneOf (cs : List Char) (b : UInt8) : Bool :=
  cs.any fun c => b == c.toUInt8

/-- A byte that begins no character. -/
def isContinuation (b : UInt8) : Bool :=
  0x80 ≤ b && b ≤ 0xBF

/-- Does a character begin at this index, or the text end? -/
def isBoundary (bytes : List UInt8) (i : Nat) : Bool :=
  i == 0 || i == bytes.length || bytes[i]?.any fun b => !isContinuation b

/-- A cut within a character or out of bounds. -/
structure BadCut where
  start : Nat
  stop : Nat
deriving DecidableEq, Repr

/-- The bytes from one index to another. -/
def slice (bytes : List UInt8) (start stop : Nat) : Except BadCut (List UInt8) :=
  if start ≤ stop ∧ stop ≤ bytes.length ∧ isBoundary bytes start ∧ isBoundary bytes stop then
    .ok ((bytes.take stop).drop start)
  else
    .error ⟨start, stop⟩

/-- Where the first line ends. -/
def lineEnd (bytes : List UInt8) : Nat :=
  (bytes.findIdx? (isOneOf ['\n'])).getD bytes.length

/-! ## Quotes that stay open -/

/-- The number of backslashes that stand directly in front of an index. -/
def backslashesBefore (bytes : List UInt8) : Nat → Nat
  | 0 => 0
  | i + 1 => if bytes[i]? = some '\\'.toUInt8 then backslashesBefore bytes i + 1 else 0

/-- Is the quote at an index escaped?  Only double quotes can be. -/
def isEscaped (bytes : List UInt8) (quote : UInt8) (i : Nat) : Bool :=
  quote == '"'.toUInt8 && backslashesBefore bytes i % 2 == 1

/-- From an index on, look for the quote that closes.  If a line feed stands in
    front of it, the answer is the end of the line that it stands on. -/
def closingEnd (bytes : List UInt8) (quote : UInt8) (broken : Bool) (i : Nat) :
    Except BadCut (Option Nat) :=
  if h : i < bytes.length then
    if bytes[i] = '\n'.toUInt8 then
      closingEnd bytes quote true (i + 1)
    else if bytes[i] = quote ∧ !isEscaped bytes quote i then
      if broken then
        (slice bytes i bytes.length).map fun tail => some (i + lineEnd tail)
      else
        .ok none
    else
      closingEnd bytes quote broken (i + 1)
  else
    .ok none
termination_by bytes.length - i

/-- The index behind the first separator.  It has to stand on the first line that
    is not blank, and that line must be no comment. -/
def behindSeparator? (bytes : List UInt8) : Option Nat := do
  let start ← bytes.findIdx? fun b => !isOneOf [' ', '\t', '\n', '\x0c', '\r'] b
  if bytes[start]? = some '#'.toUInt8 then
    none
  else
    let further ← (bytes.drop start).findIdx? (isOneOf ['=', ':', '\n'])
    let separator := further + start
    if bytes[separator]? = some '\n'.toUInt8 then none else some (separator + 1)

/-- The quote that a value behind an index begins with, and the index behind the
    quote. -/
def quoteBehind? (bytes : List UInt8) (i : Nat) : Option (UInt8 × Nat) := do
  let gap ← (bytes.drop i).findIdx? fun b => !isOneOf [' ', '\t'] b
  let value := gap + i
  let quote ← bytes[value]?
  if isOneOf ['"', '\''] quote then some (quote, value + 1) else none

/-- The end of a statement whose value opens a quote and closes it on a line
    further below.  There is none for a statement of one line, for a comment, and
    for a quote that is never closed. -/
def quotedEnd (bytes : List UInt8) : Except BadCut (Option Nat) :=
  match (behindSeparator? bytes).bind (quoteBehind? bytes) with
  | none => .ok none
  | some (quote, i) => closingEnd bytes quote false i

end Bytes

/-! ## The scanner -/

open Bytes

/-- A scanner of a file. -/
structure Scanner where
  input : List UInt8
  /-- The byte that the next segment begins at.  Behind a file that does not end
      in a line feed it stands one byte too far. -/
  offset : Nat := 0
  /-- The line that the next segment begins on. -/
  line : UInt32 := 1

namespace Scanner

/-- A segment as it is found. -/
structure Piece where
  offset : Nat
  line : UInt32
  bytes : List UInt8

/-- Find the next segment, if the file has not ended. -/
def next (s : Scanner) : Except BadCut (Option (Piece × Scanner)) :=
  if s.input.length ≤ s.offset then
    .ok none
  else do
    let rest ← slice s.input s.offset s.input.length
    let stop := (← quotedEnd rest).getD (lineEnd rest)
    let text ← slice rest 0 stop
    let feeds := UInt32.ofNat (text.count '\n'.toUInt8)
    return some ({ offset := s.offset, line := s.line, bytes := text },
      { s with offset := s.offset + (stop + 1), line := s.line + (feeds + 1) })

/-- The scanner finds these pieces one after the other, and then the file has
    ended. -/
inductive Finds : Scanner → List Piece → Prop
  | ended {s : Scanner} : s.next = .ok none → Finds s []
  | found {s s' : Scanner} {p : Piece} {ps : List Piece} :
      s.next = .ok (some (p, s')) → Finds s' ps → Finds s (p :: ps)

end Scanner

end EnvFile
