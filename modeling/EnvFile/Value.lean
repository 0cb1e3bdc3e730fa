import EnvFile.Text.Blank
import EnvFile.Text.Integer

/-! # Values

    The text of a value as a file holds it, and the value that it stands for.

    * `Value.read` takes the quotes off and resolves the escapes.
    * `Value.write` gives the canonical text: truth values and integers stand
      bare, everything else stands in double quotes, escaped.

    The two are no inverses: reading resolves a written line feed before it
    looks at backslashes, so a backslash in front of an `n` does not survive,
    and a dollar sign keeps the backslash it was written with. -/

namespace EnvFile.Value

/-! ## Quotes -/

/-- Single and double quotes enclose values. -/
def isQuote (c : Char) : Bool :=
  c == '"' || c == '\''

/-- The text between two equal quotes at the ends of `t`. -/
def unquote? : Text → Option Text
  | [] => none
  | q :: t => if isQuote q && t.getLast? == some q then some t.dropLast else none

theorem unquote?_quoted {q : Char} (h : isQuote q = true) (t : Text) :
    unquote? (q :: (t ++ [q])) = some t := by
  simp [unquote?, h]

/-! ## Reading -/

/-- Replace each pair of a backslash and `letter` by `meaning`. -/
def resolve (letter meaning : Char) : Text → Text
  | [] => []
  | [c] => [c]
  | c :: d :: t =>
    if c == '\\' && d == letter then meaning :: resolve letter meaning t
    else c :: resolve letter meaning (d :: t)

/-- Drop each backslash that stands in front of anything but a dollar sign;
    the character after it is taken as it is. -/
def dropBackslashes : Text → Text
  | [] => []
  | [c] => [c]
  | c :: d :: t =>
    if c == '\\' then
      if d == '$' then c :: d :: dropBackslashes t else d :: dropBackslashes t
    else
      c :: dropBackslashes (d :: t)

/-- Resolve the escapes of a double-quoted text. -/
def unescape (t : Text) : Text :=
  dropBackslashes (resolve 'r' '\r' (resolve 'n' '\n' t))

/-- The value that a written text stands for.  Escapes count in a text that
    opens with a double quote, whether or not it closes with one. -/
def read (t : Text) : Text :=
  let body := (unquote? t).getD t
  if t.head? == some '"' then unescape body else body

/-! ## Writing -/

/-- How a character is written between double quotes. -/
def escapeChar (c : Char) : Text :=
  if c == '\n' then ['\\', 'n']
  else if c == '\r' then ['\\', 'r']
  else if c == '\\' || c == '"' || c == '$' || c == '\x60' then ['\\', c]
  else [c]

/-- How a text is written between double quotes. -/
def escape (t : Text) : Text :=
  t.flatMap escapeChar

/-- A text in double quotes. -/
def quote (t : Text) : Text :=
  '"' :: (escape t ++ ['"'])

/-- The bare written form of a text that is a truth value or an integer. -/
def bare? (t : Text) : Option Text :=
  if t = "true".toList ∨ t = "false".toList then some t
  else (Integer.read? t).map Integer.write

/-- The canonical written form of a raw value.  Blanks around it do not count.
    Quotes around it mark it as a string: they come off, and what they enclose
    is quoted even if it reads as a number. -/
def write (raw : Text) : Text :=
  let t := raw.trim
  if t.isEmpty then []
  else
    match unquote? t with
    | some body => quote body
    | none => (bare? t).getD (quote t)

end EnvFile.Value
