import EnvFile.Catalog
import EnvFile.Document.Basic

/-! # Environments

    An environment gives values to variables.  Exporting a document sets its
    live rows one after the other, under their full keys.  A variable that is
    set already is replaced or skipped, as the caller decides; one that the
    same export has set counts as set. -/

namespace EnvFile

/-- Variables and their values. -/
abbrev Environment : Type :=
  Dictionary Text

/-- What an export did. -/
structure ExportReport where
  /-- Number of entries set. -/
  loaded : Nat := 0
  /-- Number of entries skipped because the variable was set. -/
  skipped : Nat := 0
deriving DecidableEq, Repr

namespace Environment

/-- Set one variable, or skip it. -/
def exportEntry (replace : Bool) (state : Environment × ExportReport)
    (entry : Text × Text) : Environment × ExportReport :=
  let (env, report) := state
  if !replace && env.contains entry.1 then
    (env, { report with skipped := report.skipped + 1 })
  else
    (env.set entry.1 entry.2, { report with loaded := report.loaded + 1 })

/-- Set variables in order. -/
def exportEntries (env : Environment) (replace : Bool) (entries : List (Text × Text)) :
    Environment × ExportReport :=
  entries.foldl (exportEntry replace) (env, {})

/-- Set the live rows of a document. -/
def exportDocument (env : Environment) (replace : Bool) (d : Document) :
    Environment × ExportReport :=
  env.exportEntries replace d.entries

/-- Every entry is either set or skipped. -/
theorem loaded_add_skipped (replace : Bool) (entries : List (Text × Text))
    (state : Environment × ExportReport) :
    let after := (entries.foldl (exportEntry replace) state).2
    after.loaded + after.skipped = state.2.loaded + state.2.skipped + entries.length := by
  induction entries generalizing state with
  | nil => simp
  | cons e entries ih =>
    have := ih (exportEntry replace state e)
    simp only [List.foldl_cons, List.length_cons] at this ⊢
    rw [this]
    simp only [exportEntry]
    split <;> simp <;> omega

end Environment

end EnvFile
