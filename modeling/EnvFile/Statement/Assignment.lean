import EnvFile.Value

/-! # Assignments

    The written form of an assignment, with blanks between any two parts:

        export KEY = value # comment

    The word `export` and the comment may be missing.  Instead of `=` a colon
    may stand directly behind the key, with at least one blank behind it.
    The value may be

    * *quoted*: it opens with a quote and runs to the last quote of its kind
      behind which nothing but a comment stands;
    * *bare*: it runs to the first `#` or line feed.

    Which of the two is tried first depends on the separator: behind a colon
    and a wide gap the bare form comes first. -/

namespace EnvFile

/-- The parts of an assignment.  The key is as written. -/
structure Assignment where
  key : Text
  value : Text
  comment : Text := []
deriving DecidableEq

namespace Assignment

/-! ## Keyword, key, separator -/

/-- The characters of a key as written. -/
def isKeyChar (c : Char) : Bool :=
  c.isAlphanum || c == '_' || c == '.'

/-- A line without the word `export` in front.  The word counts as such only
    when blanks and then a key follow it. -/
def dropExport (t : Text) : Text :=
  match Text.after? "export".toList t with
  | some (b :: rest) =>
    if isBlank b && (rest.dropWhile isBlank).head?.any isKeyChar then rest.dropWhile isBlank
    else t
  | _ => t

/-- What separates a key from its value. -/
inductive Separator where
  | equals
  | colon
deriving DecidableEq

/-- The separator at the start of a text and what stands behind it.  A colon
    has to touch the key and to be followed by a blank. -/
def separator? (t : Text) : Option (Separator × Text) :=
  match t with
  | ':' :: b :: rest => if isBlank b then some (.colon, b :: rest) else none
  | _ =>
    match t.dropWhile isBlank with
    | '=' :: rest => some (.equals, rest)
    | _ => none

/-! ## Value and comment -/

/-- The comment behind a value: nothing, or `#` and the rest of the line, and
    the line has to be the last. -/
def trailer? (t : Text) : Option Text :=
  match t.dropWhile isBlank with
  | [] => some []
  | c :: comment => if c = '#' ∧ '\n' ∉ comment then some comment else none

/-- Cut behind an opening quote `q`: the text up to the last `q` that only a
    comment follows, and the comment. -/
def lastClosing? (q : Char) : Text → Option (Text × Text)
  | [] => none
  | c :: t =>
    match lastClosing? q t with
    | some (body, comment) => some (c :: body, comment)
    | none => if c = q then (trailer? t).map fun comment => ([], comment) else none

/-- A quoted value, quotes included, and the comment behind it. -/
def quoted? : Text → Option (Text × Text)
  | [] => none
  | q :: t =>
    if Value.isQuote q then
      (lastClosing? q t).map fun (body, comment) => (q :: (body ++ [q]), comment)
    else none

/-- Is this a character of a bare value? -/
def isBareChar (c : Char) : Bool :=
  c != '#' && c != '\n'

/-- A bare value, which may be empty, and the comment behind it. -/
def bare? (t : Text) : Option (Text × Text) :=
  (trailer? (t.dropWhile isBareChar)).map fun comment => (t.takeWhile isBareChar, comment)

/-- Is the gap behind a colon so wide that the bare form of the value comes
    first?  It has to end in a blank other than the first one and other than a
    line feed. -/
def isWide (gap : Text) : Bool :=
  decide (2 ≤ gap.length) && gap.getLast? != some '\n'

/-- The value behind a separator, as written, and the comment behind it. -/
def rawValue? (s : Separator) (t : Text) : Option (Text × Text) :=
  let body := t.dropWhile isBlank
  if s = .colon ∧ isWide (t.takeWhile isBlank) then (bare? body).or (quoted? body)
  else (quoted? body).or (bare? body)

/-- The assignment that a trimmed line holds. -/
def read? (line : Text) : Option Assignment := do
  let t := dropExport line
  let key := t.takeWhile isKeyChar
  if key.isEmpty then none
  else
    let (s, rest) ← separator? (t.dropWhile isKeyChar)
    let (raw, comment) ← rawValue? s rest
    some { key, value := Value.read raw.trim, comment := comment.trim }

end Assignment

end EnvFile
