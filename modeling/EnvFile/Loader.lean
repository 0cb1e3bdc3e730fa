import EnvFile.Environment
import EnvFile.Folder

/-! # Loading files

    A loader reads files in order, merges their rows, of which the later win,
    and exports the document of the result into an environment.  The first
    file that is missing or faulty ends the load, and the environment stays as
    it was. -/

namespace EnvFile

/-- What to load and where to. -/
structure Loader where
  /-- The names of the files, in order. -/
  paths : List Text := []
  layout : Layout := {}
  /-- Replace variables that are set already. -/
  replace : Bool := false
  target : Environment := .empty
deriving DecidableEq

/-- What a load did. -/
structure LoadReport extends ExportReport where
  /-- Number of files read. -/
  filesRead : Nat
deriving DecidableEq, Repr

namespace Loader

/-- The file that is read when none is named. -/
def standardPath : Text :=
  ".env".toList

/-- The names of the files to read. -/
def sources (l : Loader) : List Text :=
  if l.paths.isEmpty then [standardPath] else l.paths

/-- Merge the rows of files into `rows`, in order. -/
def mergeFiles (layout : Layout) (folder : Folder) (rows : RowSet) :
    List Text → Except Fault RowSet
  | [] => .ok rows
  | path :: paths =>
    match folder.rowsOf layout path with
    | .ok later => mergeFiles layout folder (rows.merge later) paths
    | .error e => .error e

/-- The merged rows of all files. -/
def rows (l : Loader) (folder : Folder) : Except Fault RowSet :=
  mergeFiles l.layout folder {} l.sources

/-- The document of all files. -/
def document (l : Loader) (folder : Folder) : Except Fault Document :=
  (l.rows folder).map (·.arrange l.layout)

/-- Export the document of all files: the loader with its target after, and
    what was done. -/
def load (l : Loader) (folder : Folder) : Except Fault (Loader × LoadReport) :=
  (l.document folder).map fun d =>
    let (target, report) := l.target.exportDocument l.replace d
    ({ l with target }, { report with filesRead := l.sources.length })

/-- Try to load: what was done, or why nothing was, and the loader
    afterwards. -/
def attempt (l : Loader) (folder : Folder) : Except Fault LoadReport × Loader :=
  match l.load folder with
  | .ok (after, report) => (.ok report, after)
  | .error e => (.error e, l)

end Loader

end EnvFile
