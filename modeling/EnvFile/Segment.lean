import EnvFile.Text.Blank
import EnvFile.Value

/-! # Segments

    A file is cut into segments, each the text of one statement.  A segment is
    one line, except that a value whose quote is still open at the end of its
    line takes in the lines up to the one that closes it.  Blank lines above
    such a value belong to its segment.  A quote that is never closed opens
    nothing.

    * `joinLines_segments`: the segments hold the lines of the file, in order,
      each once. -/

namespace EnvFile

/-- The text of one statement and the number of the line it begins on,
    counted from one. -/
structure Segment where
  line : Nat
  text : Text
deriving DecidableEq, Repr

namespace Segment

/-! ## Open quotes -/

/-- The quote that a line opens behind its first separator, and the text
    behind it.  A comment line opens none. -/
def opening? (l : Text) : Option (Char × Text) :=
  match l.dropWhile isAsciiBlank with
  | [] => none
  | c :: t =>
    if c = '#' then none
    else
      match ((c :: t).dropWhile fun d => d != '=' && d != ':').tail.dropWhile isGap with
      | [] => none
      | q :: rest => if Value.isQuote q then some (q, rest) else none

/-- Does the quote `q` close in a text?  A double quote behind a backslash
    does not close, unless the backslash is `escaped` itself. -/
def closes (q : Char) (escaped : Bool) : Text → Bool
  | [] => false
  | c :: t => (c == q && !escaped) || closes q (q == '"' && c == '\\' && !escaped) t

/-- How many lines belong to the first line because of an open quote. -/
def further? : List Text → Option Nat
  | [] => none
  | l :: ls =>
    if l.all isAsciiBlank then (further? ls).map (· + 1)
    else
      match opening? l with
      | none => none
      | some (q, t) =>
        if closes q false t then none else (ls.findIdx? (closes q false)).map (· + 1)

/-! ## Cutting -/

/-- The groups of lines that form segments. -/
def group : List Text → List (List Text)
  | [] => []
  | l :: ls =>
    let n := (further? (l :: ls)).getD 0
    (l :: ls.take n) :: group (ls.drop n)
termination_by ls => ls.length
decreasing_by simp only [List.length_drop, List.length_cons]; omega

/-- Number groups of lines by the line they begin on. -/
def number (line : Nat) : List (List Text) → List Segment
  | [] => []
  | g :: gs => { line, text := Text.joinLines g } :: number (line + g.length) gs

/-- The lines of a file.  A line feed ends a line, so nothing stands behind
    the last one. -/
def fileLines (t : Text) : List Text :=
  if t.lines.getLast? = some [] then t.lines.dropLast else t.lines

/-- The segments of a text whose line endings are line feeds. -/
def ofText (t : Text) : List Segment :=
  number 1 (group (fileLines t))

/-! ## Nothing is lost -/

theorem flatten_group (ls : List Text) : (group ls).flatten = ls := by
  fun_induction group ls with
  | case1 => rfl
  | case2 l ls n ih =>
    rw [List.flatten_cons, ih, List.cons_append, List.take_append_drop]

theorem ne_nil_of_mem_group {ls g : List Text} (h : g ∈ group ls) : g ≠ [] := by
  fun_induction group ls with
  | case1 => cases h
  | case2 l ls n ih =>
    rcases List.mem_cons.1 h with rfl | h
    · exact List.cons_ne_nil _ _
    · exact ih h

theorem joinLines_append {ls ms : List Text} (hl : ls ≠ []) (hm : ms ≠ []) :
    Text.joinLines (ls ++ ms) = Text.joinLines ls ++ '\n' :: Text.joinLines ms := by
  induction ls with
  | nil => exact absurd rfl hl
  | cons l ls ih =>
    cases ls with
    | nil =>
      cases ms with
      | nil => exact absurd rfl hm
      | cons m ms => simp
    | cons k ls =>
      have := ih (List.cons_ne_nil k ls)
      simp only [List.cons_append] at this ⊢
      simp [this]

theorem map_text_number (line : Nat) (gs : List (List Text)) :
    (number line gs).map Segment.text = gs.map Text.joinLines := by
  induction gs generalizing line with
  | nil => rfl
  | cons g gs ih =>
    unfold number
    rw [List.map_cons, List.map_cons, ih]

theorem joinLines_flatten {gs : List (List Text)} (h : ∀ g ∈ gs, g ≠ []) :
    Text.joinLines (gs.map Text.joinLines) = Text.joinLines gs.flatten := by
  induction gs with
  | nil => rfl
  | cons g gs ih =>
    have hg := h g List.mem_cons_self
    have rest := ih fun x hx => h x (List.mem_cons_of_mem g hx)
    cases gs with
    | nil => simp
    | cons k gs =>
      have hk : (k :: gs).flatten ≠ [] := by
        have := h k (List.mem_cons_of_mem g List.mem_cons_self)
        simp [this]
      rw [List.flatten_cons, joinLines_append hg hk, ← rest]
      simp

/-- The segments hold the lines of the file, in order, each once. -/
theorem joinLines_segments (t : Text) :
    Text.joinLines ((ofText t).map Segment.text) = Text.joinLines (fileLines t) := by
  rw [ofText, map_text_number, joinLines_flatten fun _ => ne_nil_of_mem_group, flatten_group]

end Segment

end EnvFile
