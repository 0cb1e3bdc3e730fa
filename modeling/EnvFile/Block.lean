import EnvFile.FirstMatch
import EnvFile.Row

/-! # Blocks

    A block is a named group of rows.  Its rows carry the keys of members: the
    name of the block stands in front of them only when the file is written
    and where a lookup is by full key.

    Functions whose key is a *member key* compare it as it is; those that take
    a key from outside normalise it first. -/

namespace EnvFile

/-- A group of rows under one name. -/
structure Block where
  name : Text
  comment : Text := []
  rows : List Row := []
deriving DecidableEq

namespace Block

/-- The empty block of the name that a text stands for. -/
def ofName (name : Text) : Block :=
  { name := Key.normalize name }

/-- Give the block a comment. -/
def setComment (b : Block) (comment : Text) : Block :=
  { b with comment }

/-- Give the block the name that a text stands for. -/
def setName (b : Block) (name : Text) : Block :=
  { b with name := Key.normalize name }

/-- Give a block without a comment this one. -/
def backfillComment (b : Block) (comment : Text) : Block :=
  if b.comment.isEmpty then { b with comment } else b

/-! ## Looking rows up -/

/-- The row with a member key. -/
def member? (b : Block) (key : Text) : Option Row :=
  b.rows.find? (·.key == key)

/-- The row that a text names. -/
def row? (b : Block) (key : Text) : Option Row :=
  b.member? (Key.normalize key)

/-- The member key that a text stands for when it may carry the name of the
    block in front. -/
def memberKey (b : Block) (key : Text) : Text :=
  let k := Key.normalize key
  (Key.member? b.name k).getD k

/-- The row that a text names, with or without the name of the block. -/
def prefixedRow? (b : Block) (key : Text) : Option Row :=
  b.member? (b.memberKey key)

/-- The keys of all rows with the name of the block in front. -/
def fullKeys (b : Block) : List Text :=
  b.rows.map (·.fullKey b.name)

/-! ## Changing rows -/

/-- Change the row with a member key. -/
def modifyMember (b : Block) (key : Text) (f : Row → Row) : Block :=
  { b with rows := updateFirst (·.key == key) f b.rows }

/-- Remove the row with a member key. -/
def eraseMember (b : Block) (key : Text) : Block :=
  { b with rows := b.rows.eraseP (·.key == key) }

/-- Change every row. -/
def mapRows (b : Block) (f : Row → Row) : Block :=
  { b with rows := b.rows.map f }

/-- Change the row that a text names. -/
def modifyRow (b : Block) (key : Text) (f : Row → Row) : Block :=
  b.modifyMember (Key.normalize key) f

/-- Change the row that a text names, with or without the name of the block. -/
def modifyPrefixedRow (b : Block) (key : Text) (f : Row → Row) : Block :=
  b.modifyMember (b.memberKey key) f

/-- Take out the row that a text names. -/
def removeRow (b : Block) (key : Text) : Option Row × Block :=
  (b.row? key, b.eraseMember (Key.normalize key))

/-- Take out the row that a text names, with or without the name of the
    block. -/
def removePrefixedRow (b : Block) (key : Text) : Option Row × Block :=
  (b.prefixedRow? key, b.eraseMember (b.memberKey key))

/-- Take out the row at an index. -/
def removeAt (b : Block) (index : Nat) : Option Row × Block :=
  (b.rows[index]?, { b with rows := b.rows.eraseIdx index })

/-! ## Adding and merging

    Adding fills gaps only; merging lets the incoming side win. -/

/-- Append a row unless its key is taken. -/
def addRow (b : Block) (r : Row) : Block :=
  match b.member? r.key with
  | some _ => b
  | none => { b with rows := b.rows ++ [r] }

/-- Add rows in order; of two with one key the first stays. -/
def addRows (b : Block) (rows : List Row) : Block :=
  rows.foldl addRow b

/-- Add a row whose key carries the name of the block; any other row is
    ignored. -/
def addPrefixedRow (b : Block) (r : Row) : Block :=
  match Key.member? b.name r.key with
  | some key => b.addRow { r with key }
  | none => b

/-- Add rows whose keys carry the name of the block, in order. -/
def addPrefixedRows (b : Block) (rows : List Row) : Block :=
  rows.foldl addPrefixedRow b

/-- Merge a row into the one with its key, or append it. -/
def mergeRow (b : Block) (r : Row) : Block :=
  match b.member? r.key with
  | some _ => b.modifyMember r.key (·.merge r)
  | none => { b with rows := b.rows ++ [r] }

/-- Take the missing rows and a missing comment from `other`. -/
def add (b other : Block) : Block :=
  (b.addRows other.rows).backfillComment other.comment

/-- Merge every row of `other`, and take a missing comment from it. -/
def merge (b other : Block) : Block :=
  (other.rows.foldl mergeRow b).backfillComment other.comment

/-! ## The written form -/

/-- The lines of a block: its banner, then its rows.  An empty block has no
    lines. -/
def lines (b : Block) (layout : Layout) : List Text :=
  if b.rows.isEmpty then []
  else
    (if b.comment.isEmpty || layout.omitComments then []
      else [layout.banner.render b.comment]) ++
    b.rows.flatMap (·.lines b.name layout)

/-- The text of a block. -/
def render (b : Block) (layout : Layout) : Text :=
  Text.joinLines (b.lines layout)

/-! ## Member keys stay distinct -/

/-- No two rows of the block have the same key. -/
def Distinct (b : Block) : Prop :=
  (b.rows.map Row.key).Nodup

theorem member?_eq_none_iff {b : Block} {key : Text} :
    b.member? key = none ↔ key ∉ b.rows.map Row.key := by
  simp [member?]

theorem Distinct.append {b : Block} (h : b.Distinct) {r : Row} (hr : b.member? r.key = none) :
    Distinct { b with rows := b.rows ++ [r] } := by
  have hn := member?_eq_none_iff.1 hr
  simp only [Distinct, List.map_append, List.map_cons, List.map_nil]
  refine List.nodup_append.2 ⟨h, by simp, fun a ha c hc e => hn ?_⟩
  rw [← List.mem_singleton.1 hc, ← e]
  exact ha

theorem Distinct.addRow {b : Block} (h : b.Distinct) (r : Row) : (b.addRow r).Distinct := by
  rw [Block.addRow]
  split
  · exact h
  · rename_i hr; exact h.append hr

theorem Distinct.modifyMember {b : Block} (h : b.Distinct) (key : Text) {f : Row → Row}
    (hf : ∀ r, (f r).key = r.key) : (b.modifyMember key f).Distinct := by
  simp only [Distinct, Block.modifyMember, map_updateFirst fun r _ => hf r]
  exact h

end Block

end EnvFile
