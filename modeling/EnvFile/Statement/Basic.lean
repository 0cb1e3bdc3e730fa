import EnvFile.Statement.Assignment

/-! # Statements

    A statement is an assignment with the comment lines above it, or less: a
    comment alone, the word `export` without an assignment, or nothing.

    `Statement.ofLines?` reads one from its lines.  It goes down the lines,
    gathering the comments on its way, until it meets a line that is neither
    blank nor a comment; that line and all below it are the assignment. -/

namespace EnvFile

/-- What a text means as a statement. -/
inductive Statement where
  /-- Blanks only. -/
  | blank
  /-- Comment lines only. -/
  | comment (text : Text)
  /-- The word `export` without an assignment, which means nothing. -/
  | bareExport
  | assignment (a : Assignment)
deriving DecidableEq

namespace Statement

/-! ## Comments -/

/-- A comment line without its markers and the blanks around it. -/
def stripMarkers (line : Text) : Text :=
  line.strip fun c => c == '#' || isBlank c

/-- The text of comment lines; those without text do not count. -/
def commentText (lines : List Text) : Text :=
  Text.joinNonempty (lines.map stripMarkers)

/-- A statement below a comment. -/
def below (comment : Text) : Statement → Statement
  | blank => .comment comment
  | .comment text => .comment (Text.joinNonempty [comment, text])
  | bareExport => bareExport
  | assignment a =>
    assignment { a with comment := Text.joinNonempty [comment, a.comment] }

/-! ## Reading -/

/-- Is a trimmed line the word `export` on its own or before a blank? -/
def isBareExport (line : Text) : Bool :=
  match Text.after? "export".toList line with
  | some rest => rest.head?.all isBlank
  | none => false

/-- A statement without comment lines above it, from its trimmed text. -/
def ofBody? (t : Text) : Option Statement :=
  match Assignment.read? t with
  | some a => some (assignment a)
  | none => if isBareExport t then some bareExport else none

/-- The statement that lines hold, unless they are malformed. -/
def ofLines? : List Text → Option Statement
  | [] => some blank
  | l :: ls =>
    match l.trim with
    | [] => ofLines? ls
    | '#' :: _ => (ofLines? ls).map (below (stripMarkers l))
    | _ => ofBody? (Text.joinLines (l :: ls)).trim

/-- The statement that a text holds, unless it is malformed. -/
def read? (t : Text) : Option Statement :=
  ofLines? t.lines

end Statement

end EnvFile
