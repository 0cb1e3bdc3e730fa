import EnvFile.Reader
import EnvFile.RowSet.Arrangement

/-! # Reading a document

    The rows of a text, arranged. -/

namespace EnvFile.Document

/-- The document of a text. -/
def ofText (layout : Layout) (t : Text) : Except Fault Document :=
  (RowSet.ofText layout t).map (·.arrange layout)

/-- The document of a file, from its bytes. -/
def ofBytes (layout : Layout) (bytes : List UInt8) : Except Fault Document :=
  (RowSet.ofBytes layout bytes).map (·.arrange layout)

end EnvFile.Document
