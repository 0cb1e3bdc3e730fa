import EnvFile.Catalog
import EnvFile.Row

/-! # Row sets

    A row set holds the rows of one or more sources under their full keys,
    before they are arranged, and the banners that stood above some of them. -/

namespace EnvFile

/-- Rows in the order of their keys, and banners by the key below them. -/
structure RowSet where
  rows : Catalog Row.key := .empty
  banners : Dictionary Text := .empty
deriving DecidableEq

namespace RowSet

instance : Inhabited RowSet := ⟨{}⟩

/-- The row of a full key. -/
def find? (s : RowSet) (key : Text) : Option Row :=
  s.rows.find? key

/-- The banner that stood above the row of a full key. -/
def banner? (s : RowSet) (key : Text) : Option Text :=
  s.banners.get? key

/-- Row sets that answer every lookup alike are equal. -/
theorem ext_find? {s t : RowSet} (rows : ∀ k, s.find? k = t.find? k)
    (banners : ∀ k, s.banner? k = t.banner? k) : s = t := by
  have hr : s.rows = t.rows := Catalog.ext_find? rows
  have hb : s.banners = t.banners := Dictionary.ext_get? banners
  cases s
  cases t
  cases hr
  cases hb
  rfl

/-- The number of rows. -/
def size (s : RowSet) : Nat :=
  s.rows.size

/-- Put in a row in place of any row with its key. -/
def insert (s : RowSet) (r : Row) : RowSet :=
  { s with rows := s.rows.insert r }

/-- Note the banner above a key; the first one noted stays. -/
def noteBanner (s : RowSet) (key banner : Text) : RowSet :=
  { s with banners := s.banners.setNew key banner }

/-- The rows of a list; of two rows with one key the later stays. -/
def ofRows (rows : List Row) : RowSet :=
  { rows := .ofList rows }

/-- Live rows for keys and values. -/
def ofPairs (pairs : List (Text × Text)) : RowSet :=
  ofRows (pairs.map fun (key, value) => Row.ofPair key value)

/-! ## Merging sources -/

/-- What becomes of a row when a later source has one with its key.  A live
    row revives a disabled one and keeps its comment unless it brings its own.
    A disabled row only leaves its value as a shadow of a live one.  Otherwise
    the later row is merged into the earlier. -/
def supersede (earlier later : Row) : Row :=
  match earlier.disabled, later.disabled with
  | true, false => later.backfillComment earlier.comment
  | false, true => earlier.addShadow later.value
  | _, _ => earlier.merge later

/-- Bring in a row of a later source. -/
def mergeRow (s : RowSet) (r : Row) : RowSet :=
  match s.find? r.key with
  | some earlier => s.insert (supersede earlier r)
  | none => s.insert r

/-- Bring in a later source.  Banners noted earlier stay. -/
def merge (s later : RowSet) : RowSet :=
  let merged := later.rows.toList.foldl mergeRow s
  later.banners.toList.foldl (fun t (key, banner) => t.noteBanner key banner) merged

end RowSet

end EnvFile
