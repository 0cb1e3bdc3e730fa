import EnvFile.Text.Utf8

/-! # Faults

    The reasons why a file gives no rows. -/

namespace EnvFile

/-- Why a file gives no rows. -/
inductive Fault where
  /-- There is no such file. -/
  | missingFile
  /-- The bytes of the file are no UTF-8. -/
  | encoding (flaw : Utf8.Flaw)
  /-- The statement that begins on a line is none. -/
  | malformed (line : Nat) (content : Text)
deriving DecidableEq, Repr

/-- What is wrong with a malformed statement, in words. -/
def Fault.malformedNote : String := "malformed line"

/-- The fault in words. -/
def Fault.message : Fault → String
  | missingFile => "I/O error: No such file or directory (os error 2)"
  | encoding flaw => "invalid UTF-8 input: " ++ flaw.message
  | malformed line content =>
    s!"parse error at line {line}: " ++ malformedNote ++ ": `" ++ String.ofList content ++ "`"

end EnvFile
