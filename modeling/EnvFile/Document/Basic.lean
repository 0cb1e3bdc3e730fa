import EnvFile.Block
import EnvFile.KeySort

/-! # Documents

    A document is a sequence of items: loose rows, which carry their full
    keys, and blocks, which carry the name of a group and its members.

    A row is found by its full key.  If the key names a member of a group and
    the document has a block for the group, the row is looked for in that
    block and nowhere else; otherwise it is a loose row. -/

namespace EnvFile

/-- An item of a document. -/
inductive Item where
  | row (r : Row)
  | block (b : Block)
deriving DecidableEq

namespace Item

/-- The full key of a loose row, the name of a block. -/
def key : Item → Text
  | .row r => r.key
  | .block b => b.name

/-- The row of an item that is a loose row. -/
def row? : Item → Option Row
  | .row r => some r
  | .block _ => none

/-- The block of an item that is a block. -/
def block? : Item → Option Block
  | .row _ => none
  | .block b => some b

/-- The rows of an item. -/
def rows : Item → List Row
  | .row r => [r]
  | .block b => b.rows

/-- The name that stands in front of the keys of an item's rows. -/
def group : Item → Text
  | .row _ => []
  | .block b => b.name

/-- Is this the loose row with a full key? -/
def isRow (key : Text) : Item → Bool
  | .row r => r.key == key
  | .block _ => false

/-- Is this the block of a name? -/
def isBlock (name : Text) : Item → Bool
  | .row _ => false
  | .block b => b.name == name

/-- Change a loose row. -/
def mapRow (f : Row → Row) : Item → Item
  | .row r => .row (f r)
  | .block b => .block b

/-- Change a block. -/
def mapBlock (f : Block → Block) : Item → Item
  | .row r => .row r
  | .block b => .block (f b)

end Item

/-- A file of variables, arranged. -/
structure Document where
  items : List Item := []
deriving DecidableEq

namespace Document

/-! ## Counting -/

/-- The loose rows, in order. -/
def looseRows (d : Document) : List Row :=
  d.items.filterMap Item.row?

/-- The blocks, in order. -/
def blocks (d : Document) : List Block :=
  d.items.filterMap Item.block?

/-- The number of rows, members of blocks included. -/
def count (d : Document) : Nat :=
  (d.items.flatMap Item.rows).length

/-- The keys of the items. -/
def keys (d : Document) : List Text :=
  d.items.map Item.key

/-! ## Looking up -/

/-- The loose row with a full key. -/
def loose? (d : Document) (key : Text) : Option Row :=
  (d.items.find? (Item.isRow key)).bind Item.row?

/-- The block of a name. -/
def named? (d : Document) (name : Text) : Option Block :=
  (d.items.find? (Item.isBlock name)).bind Item.block?

/-- The block in charge of a full key, with the member key in it. -/
def owner? (d : Document) (key : Text) : Option (Block × Text) :=
  (Key.split? key).bind fun (group, member) => (d.named? group).map (·, member)

/-- The row with a full key. -/
def find? (d : Document) (key : Text) : Option Row :=
  match d.owner? key with
  | some (b, member) => b.member? member
  | none => d.loose? key

/-- The loose rows whose keys name members of a group. -/
def looseIn (d : Document) (name : Text) : List Row :=
  d.looseRows.filter fun r => Key.isMember name r.key

/-! ## Changing -/

/-- Change the block of a name. -/
def modifyNamed (d : Document) (name : Text) (f : Block → Block) : Document :=
  { items := updateFirst (Item.isBlock name) (Item.mapBlock f) d.items }

/-- Change the loose row with a full key. -/
def modifyLoose (d : Document) (key : Text) (f : Row → Row) : Document :=
  { items := updateFirst (Item.isRow key) (Item.mapRow f) d.items }

/-- Change the row with a full key. -/
def modify (d : Document) (key : Text) (f : Row → Row) : Document :=
  match d.owner? key with
  | some (b, member) => d.modifyNamed b.name (·.modifyMember member f)
  | none => d.modifyLoose key f

/-- Add an item at the end, whatever the document holds. -/
def push (d : Document) (i : Item) : Document :=
  { items := d.items ++ [i] }

/-- Remove the block of a name with all its rows. -/
def eraseNamed (d : Document) (name : Text) : Document :=
  { items := d.items.eraseP (Item.isBlock name) }

/-- Remove the row with a full key.  A block that loses its last row stays. -/
def erase (d : Document) (key : Text) : Document :=
  match d.owner? key with
  | some (b, member) => d.modifyNamed b.name (·.eraseMember member)
  | none => { items := d.items.eraseP (Item.isRow key) }

/-- Remove the loose rows whose keys name members of a group. -/
def eraseLooseIn (d : Document) (name : Text) : Document :=
  { items := d.items.filter fun i => !i.row?.any fun r => Key.isMember name r.key }

/-! ## By the names that callers use

    Callers name rows and blocks in any spelling; the key that a text stands
    for decides. -/

/-- The row that a text names. -/
def row? (d : Document) (key : Text) : Option Row :=
  d.find? (Key.normalize key)

/-- The block that a text names. -/
def block? (d : Document) (name : Text) : Option Block :=
  d.named? (Key.normalize name)

/-- The loose rows of the group that a text names. -/
def looseRowsOf (d : Document) (name : Text) : List Row :=
  d.looseIn (Key.normalize name)

/-- Change the row that a text names. -/
def modifyRow (d : Document) (key : Text) (f : Row → Row) : Document :=
  d.modify (Key.normalize key) f

/-- Change the block that a text names. -/
def modifyBlock (d : Document) (name : Text) (f : Block → Block) : Document :=
  d.modifyNamed (Key.normalize name) f

/-- Take out the row that a text names. -/
def removeRow (d : Document) (key : Text) : Option Row × Document :=
  (d.row? key, d.erase (Key.normalize key))

/-- Take out the block that a text names. -/
def removeBlock (d : Document) (name : Text) : Option Block × Document :=
  (d.block? name, d.eraseNamed (Key.normalize name))

/-- Take out the item at an index. -/
def removeAt (d : Document) (index : Nat) : Option Item × Document :=
  (d.items[index]?, { items := d.items.eraseIdx index })

/-! ## Order -/

/-- Arrange the items by their keys; items with one key keep their order. -/
def sort (d : Document) : Document :=
  { items := sortOn Item.key d.items }

/-! ## Rows and entries -/

/-- Every row with its full key, in order. -/
def rows (d : Document) : List (Text × Row) :=
  d.items.flatMap fun i => i.rows.map fun r => (r.fullKey i.group, r)

/-- The full keys and values of the live rows, in order. -/
def entries (d : Document) : List (Text × Text) :=
  (d.rows.filter fun (_, r) => !r.disabled).map fun (key, r) => (key, r.value)

end Document

end EnvFile
