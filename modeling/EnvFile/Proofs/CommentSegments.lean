import EnvFile.Proofs.ReportedLine
import EnvFile.Proofs.SourceStatements

/-! # Comments that open a quote

    The framing knows a comment by its marker behind ASCII blanks.  What is
    read as a comment is a segment that begins with the marker once all blanks
    are trimmed.  Between the two stand the comments with another blank in
    front of the marker, such as a no-break space: for the framing they are
    statements, which may open a quote and take in the lines below.

    * `further?_isSome_iff`: which lines take in lines below them.
    * `newline_mem_trim_iff`: which segments have several lines.
    * `newline_mem_comment_iff`: which comments do. -/

namespace EnvFile

namespace Text

/-- What a text begins with behind its blanks does not hang on what stands
    behind the text. -/
theorem head?_strip_append {p : Char → Bool} {t : Text} (solid : t.dropWhile p ≠ []) (u : Text) :
    (strip p (t ++ u)).head? = (strip p t).head? := by
  rw [head?_strip_eq, head?_strip_eq, List.dropWhile_append, if_neg (by simpa using solid),
    List.head?_append_of_ne_nil _ solid]

theorem exists_joinLines_append (ls ms : List Text) (some : ls ≠ []) :
    ∃ z, joinLines (ls ++ ms) = joinLines ls ++ z := by
  by_cases none : ms = []
  · exact ⟨[], by simp [none]⟩
  · exact ⟨_, Segment.joinLines_append some none⟩

end Text

namespace Segment

variable {t l : Text} {ls : List Text} {g : Segment} {q : Char}

/-! ## Lines that leave a quote open -/

/-- Behind the first separator of the line, and behind spaces or tabs, stands a
    quote `q` that nothing behind it closes. -/
def LeavesOpen (q : Char) (l : Text) : Prop :=
  Value.isQuote q = true ∧ ∃ v s gap u, l = v ++ s :: (gap ++ q :: u) ∧
    (∀ c ∈ v, c ≠ '=' ∧ c ≠ ':') ∧ (s = '=' ∨ s = ':') ∧ Text.Made isGap gap ∧
    ∀ pre post, u = pre ++ q :: post → IsEscaped q pre

/-- A quote `q` that is not escaped stands in the line. -/
def Closes (q : Char) (l : Text) : Prop :=
  ∃ pre post, l = pre ++ q :: post ∧ ¬ IsEscaped q pre

theorem closes_eq_false_iff {u : Text} :
    closes q false u = false ↔ ∀ pre post, u = pre ++ q :: post → IsEscaped q pre := by
  rw [← Bool.not_eq_true, closes_iff]
  constructor
  · intro h pre post e
    by_contra unescaped
    exact h ⟨pre, post, e, unescaped⟩
  · rintro h ⟨pre, post, e, unescaped⟩
    exact unescaped (h pre post e)

/-- The framing sees the open quote of a line unless it takes the line for a
    comment. -/
theorem exists_opening?_iff :
    (∃ u, opening? l = some (q, u) ∧ closes q false u = false) ↔
      (l.dropWhile isAsciiBlank).head? ≠ some '#' ∧ LeavesOpen q l := by
  simp only [opening?_eq_some_iff, closes_eq_false_iff]
  constructor
  · rintro ⟨u, ⟨unmarked, quote, v, s, gap, line, plain, separator, hgap⟩, unclosed⟩
    exact ⟨unmarked, quote, v, s, gap, u, line, plain, separator, hgap, unclosed⟩
  · rintro ⟨unmarked, quote, v, s, gap, u, line, plain, separator, hgap, unclosed⟩
    exact ⟨u, ⟨unmarked, quote, v, s, gap, line, plain, separator, hgap⟩, unclosed⟩

theorem LeavesOpen.exists_nonblank (h : LeavesOpen q l) : ∃ c ∈ l, isBlank c = false := by
  obtain ⟨-, v, s, gap, u, rfl, -, separator, -⟩ := h
  refine ⟨s, by simp, ?_⟩
  rcases separator with rfl | rfl <;> decide

/-! ## Segments of several lines -/

/-- Below blank lines stands one that opens a quote, and leaves it to a line
    further below to close it. -/
def Spans (ls : List Text) : Prop :=
  ∃ blanks l below q, ls = blanks ++ l :: below ∧ (∀ b ∈ blanks, Text.Made isAsciiBlank b) ∧
    (l.dropWhile isAsciiBlank).head? ≠ some '#' ∧ LeavesOpen q l ∧ ∃ m ∈ below, Closes q m

theorem spans_cons_blank (blank : Text.Made isAsciiBlank l) : Spans (l :: ls) ↔ Spans ls := by
  constructor
  · rintro ⟨blanks, m, below, q, lines, hblanks, opens⟩
    cases blanks with
    | nil =>
      -- a line that opens a quote is not blank
      obtain ⟨rfl, rfl⟩ := List.cons.inj lines
      obtain ⟨c, hc, nonblank⟩ := opens.2.1.exists_nonblank
      exact absurd (isBlank_of_isAsciiBlank (blank c hc)) (by simp [nonblank])
    | cons b blanks =>
      obtain ⟨rfl, rfl⟩ := List.cons.inj lines
      exact ⟨blanks, m, below, q, rfl, fun b hb => hblanks b (List.mem_cons_of_mem _ hb), opens⟩
  · rintro ⟨blanks, m, below, q, rfl, hblanks, opens⟩
    exact ⟨l :: blanks, m, below, q, rfl, List.forall_mem_cons.2 ⟨blank, hblanks⟩, opens⟩

theorem spans_cons (solid : ¬ Text.Made isAsciiBlank l) :
    Spans (l :: ls) ↔ ∃ q u, opening? l = some (q, u) ∧ closes q false u = false ∧
      ∃ m ∈ ls, closes q false m = true := by
  have closing (q : Char) : (∃ m ∈ ls, closes q false m = true) ↔ ∃ m ∈ ls, Closes q m := by
    simp only [closes_iff, Closes]
  constructor
  · rintro ⟨blanks, m, below, q, lines, hblanks, unmarked, opens, closed⟩
    cases blanks with
    | nil =>
      obtain ⟨rfl, rfl⟩ := List.cons.inj lines
      obtain ⟨u, opening, unclosed⟩ := exists_opening?_iff.2 ⟨unmarked, opens⟩
      exact ⟨q, u, opening, unclosed, (closing q).2 closed⟩
    | cons b blanks =>
      obtain ⟨rfl, -⟩ := List.cons.inj lines
      exact absurd (hblanks l List.mem_cons_self) solid
  · rintro ⟨q, u, opening, unclosed, closed⟩
    obtain ⟨unmarked, opens⟩ := exists_opening?_iff.1 ⟨u, opening, unclosed⟩
    exact ⟨[], l, ls, q, rfl, by simp, unmarked, opens, (closing q).1 closed⟩

/-- **Which lines take in lines below them.** -/
theorem further?_isSome_iff : (further? ls).isSome ↔ Spans ls := by
  induction ls with
  | nil =>
    refine iff_of_false (by simp [further?]) ?_
    rintro ⟨blanks, l, below, q, lines, -⟩
    simp at lines
  | cons l ls ih =>
    -- a blank line hands the question down, any other line decides it
    unfold further?
    by_cases blank : l.all isAsciiBlank = true
    · rw [if_pos blank, spans_cons_blank (List.all_eq_true.1 blank), Option.isSome_map, ih]
    · rw [if_neg blank, spans_cons fun made => blank (List.all_eq_true.2 made)]
      cases opening : opening? l with
      | none => simp
      | some p =>
        obtain ⟨q, u⟩ := p
        cases closed : closes q false u with
        | true => simp [closed]
        | false => simp [closed]

/-- The lines that a segment is made of. -/
theorem exists_lines_of_mem {n : Nat} (h : g ∈ number n (group ls)) :
    ∃ above l below, ls = above ++ l :: below ∧ g.line = n + above.length ∧
      g.text = Text.joinLines (l :: below.take ((further? (l :: below)).getD 0)) := by
  fun_induction group ls generalizing n with
  | case1 => cases h
  | case2 l ls k =>
    rename_i ih
    rcases List.mem_cons.1 h with rfl | h
    · exact ⟨[], l, ls, rfl, rfl, rfl⟩
    · obtain ⟨above, m, below, rest, line, text⟩ := ih h
      refine ⟨l :: ls.take k ++ above, m, below, ?_, ?_, text⟩
      · rw [List.append_assoc, ← rest, List.cons_append, List.take_append_drop]
      · rw [line, List.length_append]
        omega

theorem exists_drop_fileLines (hg : g ∈ ofText t) :
    ∃ l below, (fileLines t).drop (g.line - 1) = l :: below ∧ l ∈ fileLines t ∧
      g.text = Text.joinLines (l :: below.take ((further? (l :: below)).getD 0)) := by
  obtain ⟨above, l, below, lines, line, text⟩ := exists_lines_of_mem hg
  refine ⟨l, below, ?_, by simp [lines], text⟩
  rw [lines, line, Nat.add_sub_cancel_left, List.drop_left]

/-- **Which segments have several lines.** -/
theorem newline_mem_trim_iff (hg : g ∈ ofText t) :
    '\n' ∈ g.text.trim ↔ Spans ((fileLines t).drop (g.line - 1)) := by
  obtain ⟨l, below, lines, hl, text⟩ := exists_drop_fileLines hg
  rw [lines, ← further?_isSome_iff]
  cases further : further? (l :: below) with
  | none =>
    rw [further] at text
    -- the segment is one line of the file
    have one : g.text = l := by rw [text]; exact Text.joinLines_singleton l
    have whole : '\n' ∉ l := fun feed =>
      (Text.mem_of_mem_lines (mem_lines_of_mem_fileLines hl) feed).1 rfl
    rw [one]
    exact iff_of_false (fun feed => whole (Text.mem_of_mem_strip feed)) (by simp)
  | some n =>
    rw [further] at text
    refine iff_of_true (newline_mem_trim hg ?_) rfl
    -- the line that closes the quote is the last of at least two
    obtain ⟨blanks, m, mid, last, -, -, cut, -, -⟩ := wrapped_of_further? further
    have several : g.text = Text.joinLines ((blanks ++ m :: mid) ++ [last]) := by
      rw [text, Option.getD_some, ← List.take_succ_cons, cut, List.append_assoc, List.cons_append]
    rw [several, Text.joinLines_append_cons]
    simp [Text.ended]

/-! ## Comments -/

/-- The comment marker stands behind blanks that are not all ASCII blanks. -/
def Veiled (l : Text) : Prop :=
  ∃ front rest, l = front ++ '#' :: rest ∧ Text.Made isBlank front ∧
    ∃ c ∈ front, isAsciiBlank c = false

/-- The framing does not see a veiled marker. -/
theorem Veiled.head?_ne (h : Veiled l) : (l.dropWhile isAsciiBlank).head? ≠ some '#' := by
  obtain ⟨front, rest, rfl, blank, c, hc, further⟩ := h
  have some : front.dropWhile isAsciiBlank ≠ [] := by
    intro none
    have ascii := List.dropWhile_eq_nil_iff.1 none c hc
    simp [further] at ascii
  rw [List.dropWhile_append, if_neg (by simpa using some), List.head?_append_of_ne_nil _ some]
  intro marked
  have inside := (List.dropWhile_sublist isAsciiBlank).subset (List.mem_of_mem_head? marked)
  exact absurd (blank '#' inside) (by decide)

/-- A marker that all blanks are trimmed from, and that the framing does not
    see, is veiled. -/
theorem veiled_of_head? (marked : l.trim.head? = some '#')
    (unseen : (l.dropWhile isAsciiBlank).head? ≠ some '#') : Veiled l := by
  rw [Text.trim, Text.head?_strip_eq] at marked
  obtain ⟨rest, behind⟩ := List.head?_eq_some_iff.1 marked
  have cut : l = l.takeWhile isBlank ++ '#' :: rest := by
    rw [← behind, List.takeWhile_append_dropWhile]
  refine ⟨l.takeWhile isBlank, rest, cut, fun c hc => List.mem_takeWhile_imp hc, ?_⟩
  by_contra ascii
  apply unseen
  have front : ∀ c ∈ l.takeWhile isBlank, isAsciiBlank c = true := by
    intro c hc
    by_contra further
    exact ascii ⟨c, hc, by simpa using further⟩
  conv_lhs => rw [cut]
  rw [(Text.span_append_cons front (by decide) rest).2]
  rfl

/-- A segment begins to say what its first line does that is not blank. -/
theorem head?_trim_text {blanks below : List Text} (hg : g ∈ ofText t) (solid : g.text.trim ≠ [])
    (lines : (fileLines t).drop (g.line - 1) = blanks ++ l :: below)
    (blank : ∀ b ∈ blanks, Text.Made isAsciiBlank b) (nonblank : ∃ c ∈ l, isBlank c = false) :
    g.text.trim.head? = l.trim.head? := by
  obtain ⟨first, rest, cut, -, text⟩ := exists_drop_fileLines hg
  -- both begin the text that the file goes on with
  have whole (u : Text) (h : ∃ c ∈ u, isBlank c = false) : u.dropWhile isBlank ≠ [] := by
    obtain ⟨c, hc, kept⟩ := h
    intro none
    have := List.dropWhile_eq_nil_iff.1 none c hc
    simp [kept] at this
  obtain ⟨y, segment⟩ : ∃ y, Text.joinLines (blanks ++ l :: below) = g.text ++ y := by
    obtain ⟨n, text⟩ : ∃ n, g.text = Text.joinLines (first :: rest.take n) := ⟨_, text⟩
    have split : first :: rest = (first :: rest.take n) ++ rest.drop n := by
      rw [List.cons_append, List.take_append_drop]
    rw [← lines, cut, text, split]
    exact Text.exists_joinLines_append _ _ (List.cons_ne_nil _ _)
  obtain ⟨z, line⟩ : ∃ z, Text.joinLines (l :: below) = l ++ z := by
    simpa using Text.exists_joinLines_append [l] below (List.cons_ne_nil l [])
  have front : ∀ c ∈ Text.ended blanks, isBlank c = true := by
    intro c hc
    obtain ⟨b, hb, hc⟩ := List.mem_flatMap.1 hc
    rcases List.mem_append.1 hc with hc | hc
    · exact isBlank_of_isAsciiBlank (blank b hb c hc)
    · rw [List.mem_singleton.1 hc]
      decide
  rw [Text.joinLines_append_cons, line] at segment
  calc g.text.trim.head?
      = (g.text ++ y).trim.head? :=
        (Text.head?_strip_append (whole _ (Text.exists_nonblank solid)) y).symm
    _ = (l ++ z).trim.head? := by
        rw [← segment]
        exact congrArg List.head? (Text.strip_append_left front _)
    _ = l.trim.head? := Text.head?_strip_append (whole _ nonblank) z

/-- **Which comments have several lines:** those with a veiled marker whose line
    leaves a quote open behind its first separator, if a line further below
    closes the quote.  A marker behind ASCII blanks opens none. -/
theorem newline_mem_comment_iff (hg : g ∈ ofText t) (mark : g.text.trim.head? = some '#') :
    '\n' ∈ g.text.trim ↔
      ∃ blanks l below q, (fileLines t).drop (g.line - 1) = blanks ++ l :: below ∧
        (∀ b ∈ blanks, Text.Made isAsciiBlank b) ∧ Veiled l ∧ LeavesOpen q l ∧
        ∃ m ∈ below, Closes q m := by
  rw [newline_mem_trim_iff hg]
  constructor
  · rintro ⟨blanks, l, below, q, lines, blank, unseen, opens, closed⟩
    have solid : g.text.trim ≠ [] := by
      intro none
      simp [none] at mark
    rw [head?_trim_text hg solid lines blank opens.exists_nonblank] at mark
    exact ⟨blanks, l, below, q, lines, blank, veiled_of_head? mark unseen, opens, closed⟩
  · rintro ⟨blanks, l, below, q, lines, blank, veiled, opens, closed⟩
    exact ⟨blanks, l, below, q, lines, blank, veiled.head?_ne, opens, closed⟩

/-- A no-break space in front of the marker, and a blank line above. -/
theorem newline_mem_comment_sample :
    ofText "\n\u00a0# see a=\"x\nB=\"2\"".toList = [⟨1, "\n\u00a0# see a=\"x\nB=\"2\"".toList⟩] ∧
      ∃ blanks l below q,
        fileLines "\n\u00a0# see a=\"x\nB=\"2\"".toList = blanks ++ l :: below ∧
          (∀ b ∈ blanks, Text.Made isAsciiBlank b) ∧ Veiled l ∧ LeavesOpen q l ∧
          ∃ m ∈ below, Closes q m := by
  have cut : ofText "\n\u00a0# see a=\"x\nB=\"2\"".toList =
      [⟨1, "\n\u00a0# see a=\"x\nB=\"2\"".toList⟩] := by decide +kernel
  have member : (⟨1, "\n\u00a0# see a=\"x\nB=\"2\"".toList⟩ : Segment) ∈
      ofText "\n\u00a0# see a=\"x\nB=\"2\"".toList := by
    rw [cut]
    exact List.mem_singleton_self _
  exact ⟨cut, (newline_mem_comment_iff member (by decide +kernel)).1 (by decide +kernel)⟩

/-- A comment behind a no-break space takes in the variable below it, which is
    lost.  Behind a space it does not. -/
theorem comment_takes_in_row :
    (∃ g ∈ ofText "\u00a0# see a=\"x\nB=\"2\"".toList,
        g.text.trim.head? = some '#' ∧ '\n' ∈ g.text.trim) ∧
      RowSet.ofText {} "\u00a0# see a=\"x\nB=\"2\"".toList = .ok {} ∧
      (RowSet.ofText {} " # see a=\"x\nB=\"2\"".toList).map (fun s => s.rows.toList.map Row.key) =
        .ok ["B".toList] := by
  decide +kernel

end Segment

end EnvFile
