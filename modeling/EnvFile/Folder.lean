import EnvFile.Document.Read
import EnvFile.Document.Render

/-! # Folders

    A folder holds files by name, each a sequence of bytes.  Documents are
    read from the files of a folder and saved into it. -/

namespace EnvFile

/-- Files by name. -/
abbrev Folder : Type :=
  Dictionary (List UInt8)

namespace Folder

/-- The rows of a file. -/
def rowsOf (folder : Folder) (layout : Layout) (path : Text) : Except Fault RowSet :=
  match folder.get? path with
  | some bytes => RowSet.ofBytes layout bytes
  | none => .error .missingFile

/-- Write the text of a document to a file, in place of what it held.  A
    document that is not written leaves the folder as it was. -/
def save (folder : Folder) (layout : Layout) (path : Text) (d : Document) : Folder :=
  match d.render? layout with
  | some t => folder.set path (Utf8.encode t)
  | none => folder

end Folder

end EnvFile
