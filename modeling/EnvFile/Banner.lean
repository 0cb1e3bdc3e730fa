import EnvFile.Text.Blank

/-! # Banners

    A banner is a comment line that titles a block of rows.  A template says
    what stands before and after the title.  Recognition disregards blanks
    around the line, the two halves and the title, so that a banner survives
    an editor that strips the ends of lines. -/

namespace EnvFile.Banner

/-- What stands around the title of a banner. -/
structure Template where
  before : Text := "###   ---[ ".toList
  after : Text := " ]---   ###".toList
deriving DecidableEq

/-- The banner line for a title. -/
def Template.render (t : Template) (title : Text) : Text :=
  t.before ++ title ++ t.after

/-- The title of a line that is a banner. -/
def Template.title? (t : Template) (line : Text) : Option Text :=
  (Text.after? t.before.trim line.trim).bind fun rest =>
    (Text.before? t.after.trim rest).map Text.trim

end EnvFile.Banner
