import EnvFile.Fault
import EnvFile.RowSet.Basic
import EnvFile.Segment
import EnvFile.Statement.Basic
import EnvFile.Text.Newline

/-! # Reading a file

    A reader goes through the segments of a file and gathers rows.  Comment
    lines and a banner wait for the row below them; a commented-out assignment
    is a disabled row.

    Where a file defines a variable more than once, the first live value
    counts and every other value becomes a shadow of it, the values of
    disabled rows above included. -/

namespace EnvFile

/-- What a reader knows after some segments of a file. -/
structure Reader where
  rows : RowSet := {}
  /-- Comment lines that wait for a row. -/
  comments : List Text := []
  /-- The title of a banner that waits for a row. -/
  banner : Option Text := none
  /-- Further values of rows that are disabled so far. -/
  history : Dictionary (List Text) := .empty
deriving DecidableEq

namespace Reader

/-! ## Rows -/

/-- The further values of a disabled row. -/
def historyOf (s : Reader) (key : Text) : List Text :=
  (s.history.get? key).getD []

/-- Remember a further value of a disabled row, once. -/
def noteHistory (s : Reader) (key value : Text) : Reader :=
  if (s.historyOf key).contains value then s
  else { s with history := s.history.set key (s.historyOf key ++ [value]) }

/-- Put in a row in place of any row with its key. -/
def insertRow (s : Reader) (r : Row) : Reader :=
  { s with rows := s.rows.insert r }

/-- A live row that takes the place of a disabled one: its values become
    shadows, and its comment serves where the live row has none. -/
def revive (s : Reader) (old r : Row) : Row :=
  ((r.addShadow old.value).addShadows (s.historyOf r.key)).backfillComment old.comment

/-- Put in a live row. -/
def insertLive (s : Reader) (r : Row) : Reader :=
  match s.rows.find? r.key with
  | none => s.insertRow r
  | some old =>
    if old.disabled then s.insertRow (s.revive old r)
    else s.insertRow ((old.addShadow r.value).backfillComment r.comment)

/-- Put in a disabled row. -/
def insertDisabled (s : Reader) (r : Row) : Reader :=
  match s.rows.find? r.key with
  | none => s.insertRow r
  | some old =>
    if old.disabled then s.noteHistory r.key r.value
    else s.insertRow (old.addShadow r.value)

/-- Hand the waiting banner to the row of a key. -/
def placeBanner (s : Reader) (key : Text) : Reader :=
  match s.banner with
  | none => s
  | some title => { s with rows := s.rows.noteBanner key title, banner := none }

/-! ## Segments -/

/-- Read a trimmed comment line.  It is a banner, a commented-out assignment,
    or a comment that waits for the row below. -/
def readComment (layout : Layout) (line : Text) (s : Reader) : Reader :=
  match layout.banner.title? line with
  | some title => { s with banner := some title }
  | none =>
    match Statement.read? (line.dropWhile (· == '#')) with
    | some (.assignment a) =>
      let text := Text.joinNonempty [Statement.commentText s.comments, a.comment]
      let r := ((Row.ofPair a.key a.value).setComment text).setDisabled true
      ({ s with comments := [] }.placeBanner r.key).insertDisabled r
    | some .blank => s
    | _ =>
      if (Statement.stripMarkers line).isEmpty then s
      else { s with comments := s.comments ++ [line] }

/-- Read a trimmed statement that is no comment, together with the comment
    lines that wait. -/
def readStatement (line : Nat) (t : Text) (s : Reader) : Except Fault Reader :=
  match Statement.read? (Text.joinLines (s.comments ++ [t])) with
  | none => .error (.malformed line t)
  | some (.assignment a) =>
    let r := (Row.ofPair a.key a.value).setComment a.comment
    .ok (({ s with comments := [] }.placeBanner r.key).insertLive r)
  | some _ => .ok { s with comments := [] }

/-- Read one segment. -/
def feed (layout : Layout) (s : Reader) (segment : Segment) : Except Fault Reader :=
  match segment.text.trim with
  | [] => .ok s
  | '#' :: t => .ok (s.readComment layout ('#' :: t))
  | t => s.readStatement segment.line t

/-- Read segments in order, up to the first that is malformed. -/
def feedAll (layout : Layout) (s : Reader) : List Segment → Except Fault Reader
  | [] => .ok s
  | g :: gs =>
    match s.feed layout g with
    | .ok s => s.feedAll layout gs
    | .error e => .error e

end Reader

namespace RowSet

/-- The rows of a text. -/
def ofText (layout : Layout) (t : Text) : Except Fault RowSet :=
  (Reader.feedAll layout {} (Segment.ofText t.normalizeNewlines)).map Reader.rows

/-- The rows of a file, from its bytes. -/
def ofBytes (layout : Layout) (bytes : List UInt8) : Except Fault RowSet :=
  match Utf8.decode bytes with
  | .ok t => ofText layout t
  | .error flaw => .error (.encoding flaw)

end RowSet

end EnvFile
