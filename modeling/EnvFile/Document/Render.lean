import EnvFile.Document.Basic

/-! # The text of a document

    The items of a document are written one after the other with blank lines
    between them.  An item that comes to nothing in a layout leaves no gap. -/

namespace EnvFile

/-- The lines of an item. -/
def Item.lines (layout : Layout) : Item → List Text
  | .row r => r.lines [] layout
  | .block b => b.lines layout

/-- The text of an item. -/
def Item.render (layout : Layout) (i : Item) : Text :=
  Text.joinLines (i.lines layout)

namespace Document

/-- The lines of all items, without what separates them. -/
def lines (d : Document) (layout : Layout) : List Text :=
  d.items.flatMap (Item.lines layout)

/-- The text of a document in a layout. -/
def render (d : Document) (layout : Layout) : Text :=
  List.intercalate layout.separator
    ((d.items.map (Item.render layout)).filter fun t => !t.isEmpty)

/-- What is written of a document in a layout.  The separator is built first,
    whether or not there are items to separate; where no text can be as long,
    nothing is written. -/
def render? (d : Document) (layout : Layout) : Option Text :=
  if layout.feeds ≤ Layout.maxLength then some (d.render layout) else none

end Document

end EnvFile
