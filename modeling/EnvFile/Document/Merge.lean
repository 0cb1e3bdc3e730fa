import EnvFile.Document.Basic

/-! # Adding to a document and merging documents

    Adding fills gaps and changes no row that is there; merging lets the
    incoming side win.  Both keep a group in one place: a block takes in the
    loose rows of its group when it arrives, and a row whose group has loose
    rows founds a block with them. -/

namespace EnvFile.Document

/-! ## Blocks -/

/-- Bring in a block.  `combine` says what becomes of a block of the same
    name, and of the loose rows of the group, which are taken to form one. -/
def putBlock (combine : Block → Block → Block) (d : Document) (b : Block) : Document :=
  match d.named? b.name with
  | some _ => d.modifyNamed b.name (combine · b)
  | none =>
    match d.looseIn b.name with
    | [] => d.push (.block b)
    | loose =>
      (d.eraseLooseIn b.name).push
        (.block (combine ((Block.ofName b.name).addPrefixedRows loose) b))

section PutBlock

variable {combine : Block → Block → Block} {d : Document} {b : Block}

theorem putBlock_of_named {c : Block} (h : d.named? b.name = some c) :
    d.putBlock combine b = d.modifyNamed b.name (combine · b) := by
  unfold putBlock
  rw [h]

theorem putBlock_of_new (h : d.named? b.name = none) (hl : d.looseIn b.name = []) :
    d.putBlock combine b = d.push (.block b) := by
  unfold putBlock
  rw [h, hl]

theorem putBlock_of_loose {r : Row} {rows : List Row} (h : d.named? b.name = none)
    (hl : d.looseIn b.name = r :: rows) :
    d.putBlock combine b =
      (d.eraseLooseIn b.name).push
        (.block (combine ((Block.ofName b.name).addPrefixedRows (r :: rows)) b)) := by
  unfold putBlock
  rw [h, hl]

end PutBlock

/-! ## Rows -/

/-- Bring in a row whose key names a member of a group without a block.  It
    stays loose unless the group has loose rows already. -/
def putMember (d : Document) (group : Text) (r : Row) : Document :=
  match d.looseIn group with
  | [] => d.push (.row r)
  | loose =>
    (d.eraseLooseIn group).push
      (.block (((Block.ofName group).addPrefixedRows loose).addPrefixedRow r))

/-- Bring in a row unless its key is taken. -/
def addRow (d : Document) (r : Row) : Document :=
  match d.loose? r.key with
  | some _ => d
  | none =>
    match Key.split? r.key with
    | none => d.push (.row r)
    | some (group, _) =>
      match d.named? group with
      | some _ => d.modifyNamed group (·.addPrefixedRow r)
      | none => d.putMember group r

/-- Merge a row into the one with its key, or bring it in. -/
def mergeRow (d : Document) (r : Row) : Document :=
  match d.find? r.key with
  | some _ => d.modify r.key (·.merge r)
  | none => d.addRow r

/-! ## Items and documents -/

/-- Add an item; nothing that is there changes its value. -/
def add (d : Document) : Item → Document
  | .row r => d.addRow r
  | .block b => d.putBlock Block.add b

/-- Add items in order. -/
def addItems (d : Document) (items : List Item) : Document :=
  items.foldl add d

/-- Merge an item; its values win. -/
def mergeItem (d : Document) : Item → Document
  | .row r => d.mergeRow r
  | .block b => d.putBlock Block.merge b

/-- Merge items in order. -/
def mergeItems (d : Document) (items : List Item) : Document :=
  items.foldl mergeItem d

/-- Merge every item of another document, whose values win. -/
def merge (d other : Document) : Document :=
  d.mergeItems other.items

end EnvFile.Document
