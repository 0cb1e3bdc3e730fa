import EnvFile.Document.Basic
import EnvFile.RowSet.Basic

/-! # Arranging a row set

    Arranging turns a row set into a document.  The rows whose keys name
    members of one group form a block when there are more of them than the
    layout's threshold; all other rows are loose.  The items come in the order
    of their keys, a loose row before a block of the same key. -/

namespace EnvFile.RowSet

/-- The group that the key of a row names. -/
def groupOf (r : Row) : Option Text :=
  (Key.split? r.key).map Prod.fst

/-- The rows of a group, in the order of their keys. -/
def membersOf (s : RowSet) (group : Text) : List Row :=
  s.rows.toList.filter fun r => Key.isMember group r.key

/-- Does the group form a block? -/
def formsBlock (s : RowSet) (layout : Layout) (group : Text) : Bool :=
  layout.groupThreshold < (s.membersOf group).length

/-- The rows that stay loose, in the order of their keys. -/
def looseRows (s : RowSet) (layout : Layout) : List Row :=
  s.rows.toList.filter fun r => !(groupOf r).any (s.formsBlock layout)

/-- The groups that form blocks. -/
def blockNames (s : RowSet) (layout : Layout) : List Text :=
  (s.rows.toList.filterMap groupOf).eraseDups.filter (s.formsBlock layout)

/-- A row of a group under its member key. -/
def asMember (group : Text) (r : Row) : Row :=
  { r with key := (Key.member? group r.key).getD r.key }

/-- The first banner with text above one of the rows. -/
def titleOf (s : RowSet) (rows : List Row) : Text :=
  ((rows.filterMap fun r => s.banner? r.key).find? (!·.isEmpty)).getD []

/-- The block of a group: its rows under their member keys, with the first
    banner above one of them. -/
def blockOf (s : RowSet) (group : Text) : Block :=
  { name := group,
    comment := s.titleOf (s.membersOf group),
    rows := (s.membersOf group).map (asMember group) }

/-- The document of a row set. -/
def arrange (s : RowSet) (layout : Layout) : Document :=
  Document.sort
    { items := (s.looseRows layout).map Item.row ++
        (s.blockNames layout).map fun group => Item.block (s.blockOf group) }

end EnvFile.RowSet

namespace EnvFile.Document

/-- The document of keys and values, all of them live. -/
def ofPairs (pairs : List (Text × Text)) (layout : Layout) : Document :=
  (RowSet.ofPairs pairs).arrange layout

end EnvFile.Document
