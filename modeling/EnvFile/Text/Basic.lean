/-! # Texts

    A text is the list of its characters.  This module holds the operations
    on texts that know nothing about files of variables: trimming by a
    predicate, taking off a beginning or an end, and cutting into lines and
    joining lines again.

    * `after?_eq_some_iff`, `before?_eq_some_iff`: taking a beginning or an
      end off a text is the converse of putting it on.
    * `joinLines_lines`: cutting a text into lines loses nothing.
    * `lines_joinLines`: lines without a line feed come back as they were. -/

namespace EnvFile

/-- A text is the list of its characters. -/
abbrev Text := List Char

namespace Text

/-! ## Trimming -/

/-- Drop the characters satisfying `p` from the end of a text. -/
def trimRight (p : Char → Bool) (t : Text) : Text :=
  (t.reverse.dropWhile p).reverse

/-- Drop the characters satisfying `p` from both ends of a text. -/
def strip (p : Char → Bool) (t : Text) : Text :=
  trimRight p (t.dropWhile p)

theorem strip_eq_nil_of_all {p : Char → Bool} {t : Text} (h : ∀ c ∈ t, p c = true) :
    strip p t = [] := by
  induction t with
  | nil => rfl
  | cons c t ih =>
    rw [strip, List.dropWhile_cons_of_pos (h c List.mem_cons_self)]
    exact ih fun d hd => h d (List.mem_cons_of_mem c hd)

/-! ## Beginnings and ends -/

/-- What stands behind `s` in a text that begins with `s`. -/
def after? : Text → Text → Option Text
  | [], t => some t
  | _ :: _, [] => none
  | c :: s, d :: t => if c = d then after? s t else none

/-- What stands before `s` in a text that ends in `s`. -/
def before? (s t : Text) : Option Text :=
  (after? s.reverse t.reverse).map List.reverse

theorem after?_eq_some_iff {s t rest : Text} : after? s t = some rest ↔ s ++ rest = t := by
  fun_induction after? s t with
  | case1 t => simp [eq_comm]
  | case2 c s => simp
  | case3 c s t ih => simp [ih]
  | case4 c s d t h => simp [h]

theorem before?_eq_some_iff {s t rest : Text} : before? s t = some rest ↔ rest ++ s = t := by
  rw [before?, Option.map_eq_some_iff]
  constructor
  · rintro ⟨u, hu, rfl⟩
    rw [after?_eq_some_iff] at hu
    have := congrArg List.reverse hu
    simpa using this
  · intro h
    exact ⟨rest.reverse, after?_eq_some_iff.2 (by rw [← h, List.reverse_append]),
      List.reverse_reverse rest⟩

/-! ## Lines -/

/-- The lines of a text: its pieces between line feeds.  The empty text has
    one empty line, and a text that ends in a line feed has an empty last
    line. -/
def lines (t : Text) : List Text :=
  t.splitOn '\n'

/-- Put lines together with a line feed between neighbours. -/
def joinLines (ls : List Text) : Text :=
  List.intercalate ['\n'] ls

/-- Put the non-empty texts among `ts` together as lines of one text. -/
def joinNonempty (ts : List Text) : Text :=
  joinLines (ts.filter fun t => !t.isEmpty)

@[simp] theorem joinLines_lines (t : Text) : joinLines (lines t) = t :=
  List.intercalate_splitOn '\n'

theorem lines_joinLines {ls : List Text} (h : ∀ l ∈ ls, '\n' ∉ l) (ne : ls ≠ []) :
    lines (joinLines ls) = ls :=
  List.splitOn_intercalate '\n' h ne

@[simp] theorem joinLines_nil : joinLines [] = [] := rfl

@[simp] theorem joinLines_singleton (l : Text) : joinLines [l] = l := by
  simp [joinLines, List.intercalate]

@[simp] theorem joinLines_cons_cons (l m : Text) (ls : List Text) :
    joinLines (l :: m :: ls) = l ++ '\n' :: joinLines (m :: ls) := by
  simp [joinLines, List.intercalate]

end Text

end EnvFile
