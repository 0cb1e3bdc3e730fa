import EnvFile.Proofs.CleanReading
import EnvFile.Proofs.Enclosing
import EnvFile.Proofs.Injection
import EnvFile.Proofs.Loading

/-! # The line of a malformed statement

    A segment bears the number of the line that it begins on.  Blank lines above
    a value of several lines belong to its segment, so what such a segment says
    may begin further below.

    * `Segment.line_eq`: the number of a segment counts the line feeds above.
    * `Segment.single_or_wrapped`: a segment of several lines holds a value that
      runs over its last line, and only blank lines above that.
    * `RowSet.reported_line`: where the statement stands that a text is rejected
      for. -/

namespace EnvFile

/-! ## Lines and line feeds -/

namespace Text

/-- The number of the line that goes on behind a text, counted from one. -/
def lineBehind (t : Text) : Nat :=
  t.count '\n' + 1

/-- Texts with a line feed behind each. -/
def ended (ts : List Text) : Text :=
  ts.flatMap fun t => t ++ ['\n']

theorem ended_cons (t : Text) (ts : List Text) : ended (t :: ts) = t ++ '\n' :: ended ts := by
  simp [ended]

theorem joinLines_append_cons (ts : List Text) (u : Text) (us : List Text) :
    joinLines (ts ++ u :: us) = ended ts ++ joinLines (u :: us) := by
  induction ts with
  | nil => rfl
  | cons t ts ih =>
    have join := Segment.joinLines_append (List.cons_ne_nil t [])
      (show ts ++ u :: us ≠ [] by simp)
    rw [List.singleton_append, joinLines_singleton] at join
    rw [List.cons_append, join, ih, ended_cons, List.append_assoc, List.cons_append]

theorem length_lines (t : Text) : t.lines.length = t.lineBehind := by
  induction t with
  | nil => rfl
  | cons c t ih =>
    by_cases hc : c = '\n'
    · rw [hc, lines_newline, List.length_cons, ih, lineBehind, lineBehind, List.count_cons_self]
    · obtain ⟨l, cut⟩ := exists_lines_cons hc t
      have some : 0 < (lines t).length := List.length_pos_iff.2 (lines_ne_nil t)
      rw [cut, List.length_cons, List.length_tail, ih]
      rw [ih] at some
      simp [lineBehind, hc] at some ⊢

/-- Behind texts that a line feed ends, the lines are those of the rest. -/
theorem drop_lines_ended (ts : List Text) (t : Text) :
    (ended ts ++ t).lines.drop ((ended ts).count '\n') = t.lines := by
  induction ts with
  | nil => rfl
  | cons u ts ih =>
    have count : (ended (u :: ts)).count '\n' = u.lines.length + (ended ts).count '\n' := by
      rw [ended_cons, length_lines, lineBehind, List.count_append, List.count_cons_self]
      omega
    rw [count, ended_cons, List.append_assoc, List.cons_append, lines_append, List.drop_append,
      List.drop_eq_nil_of_le (by omega), List.nil_append, Nat.add_sub_cancel_left, ih]

/-- Of the lines of a text, the first that is not blank is the one behind the
    blanks in front. -/
theorem exists_lines_takeWhile {t : Text} (holds : ∃ c ∈ t, isBlank c = false) :
    ∃ blanks l rest, t.lines = blanks ++ l :: rest ∧
      (∀ b ∈ blanks, ∀ c ∈ b, isBlank c = true) ∧ (∃ c ∈ l, isBlank c = false) ∧
      blanks.length = (t.takeWhile isBlank).count '\n' := by
  induction t with
  | nil =>
    obtain ⟨c, hc, -⟩ := holds
    cases hc
  | cons c t ih =>
    cases hc : isBlank c with
    | false =>
      have feed : c ≠ '\n' := by
        rintro rfl
        exact absurd hc (by decide)
      obtain ⟨l, cut⟩ := exists_lines_cons feed t
      refine ⟨[], c :: l, (lines t).tail, cut, by simp, ⟨c, by simp, hc⟩, ?_⟩
      rw [List.takeWhile_cons_of_neg (by simp [hc])]
      rfl
    | true =>
      have behind : ∃ d ∈ t, isBlank d = false := by
        obtain ⟨d, hd, nonblank⟩ := holds
        rcases List.mem_cons.1 hd with rfl | hd
        · exact absurd nonblank (by simp [hc])
        · exact ⟨d, hd, nonblank⟩
      obtain ⟨blanks, l, rest, cut, blank, nonblank, length⟩ := ih behind
      rw [List.takeWhile_cons_of_pos hc]
      by_cases feed : c = '\n'
      · refine ⟨[] :: blanks, l, rest, by rw [feed, lines_newline, cut, List.cons_append], ?_,
          nonblank, ?_⟩
        · simpa using blank
        · simp [feed, length]
      · rw [lines_cons feed, cut, List.count_cons_of_ne feed, ← length]
        cases blanks with
        | nil =>
          obtain ⟨d, hd, hdb⟩ := nonblank
          exact ⟨[], c :: l, rest, rfl, blank, ⟨d, List.mem_cons_of_mem c hd, hdb⟩, rfl⟩
        | cons b blanks =>
          refine ⟨(c :: b) :: blanks, l, rest, rfl, ?_, nonblank, rfl⟩
          simp only [List.forall_mem_cons] at blank ⊢
          exact ⟨⟨hc, blank.1⟩, blank.2⟩

/-- What stands between characters that are not blank is not trimmed. -/
theorem mem_trim_of_between {u v w : Text} {c d e : Char} (hc : isBlank c = false)
    (he : isBlank e = false) (hd : d ∈ v) : d ∈ (u ++ c :: (v ++ e :: w)).trim := by
  obtain ⟨u', drop⟩ : ∃ u', (u ++ c :: (v ++ e :: w)).dropWhile isBlank =
      u' ++ c :: (v ++ e :: w) := by
    rw [List.dropWhile_append, List.dropWhile_cons_of_neg (by simp [hc])]
    split
    · exact ⟨[], rfl⟩
    · exact ⟨_, rfl⟩
  have text : u' ++ c :: (v ++ e :: w) = (u' ++ c :: v) ++ e :: w := by simp
  unfold trim strip
  rw [drop, text, trimRight_append_cons he]
  simp [hd]

/-- The blanks in front of a text, the text trimmed, and the blanks behind. -/
theorem exists_trim (t : Text) : ∃ post, t = t.takeWhile isBlank ++ t.trim ++ post := by
  obtain ⟨post, behind⟩ := trimRight_prefix isBlank (t.dropWhile isBlank)
  have cut : t.takeWhile isBlank ++ t.dropWhile isBlank = t := List.takeWhile_append_dropWhile
  refine ⟨post, ?_⟩
  rw [← behind, ← List.append_assoc] at cut
  exact cut.symm

theorem exists_nonblank {t : Text} (h : t.trim ≠ []) : ∃ c ∈ t, isBlank c = false := by
  by_contra none
  apply h
  apply strip_eq_nil_of_all
  intro c hc
  cases hb : isBlank c with
  | true => rfl
  | false => exact absurd ⟨c, hc, hb⟩ none

end Text

/-! ## Where a segment stands -/

namespace Segment

variable {t : Text} {above below : List Segment} {g : Segment}

theorem line_of_number {gs : List (List Text)} {n : Nat}
    (lines : ∀ ls ∈ gs, ls ≠ [] ∧ ∀ l ∈ ls, '\n' ∉ l) (h : number n gs = above ++ g :: below) :
    g.line = n + (Text.ended (above.map Segment.text)).count '\n' := by
  -- on the segments above: each group has as many lines as its text has line
  -- feeds when one more stands behind
  induction above generalizing n gs with
  | nil =>
    cases gs with
    | nil => cases h
    | cons ls gs =>
      obtain ⟨rfl, -⟩ := List.cons.inj h
      rfl
  | cons a above ih =>
    cases gs with
    | nil => cases h
    | cons ls gs =>
      obtain ⟨rfl, rest⟩ := List.cons.inj h
      obtain ⟨some, whole⟩ := lines ls List.mem_cons_self
      have length := Text.length_lines (Text.joinLines ls)
      rw [Text.lines_joinLines whole some, Text.lineBehind] at length
      have line := ih (fun ms hms => lines ms (List.mem_cons_of_mem ls hms)) rest
      rw [line, List.map_cons, Text.ended_cons, List.count_append, List.count_cons_self]
      show n + ls.length + _ = n + ((Text.joinLines ls).count '\n' + (_ + 1))
      omega

/-- **The number of a segment counts the lines above.** -/
theorem line_eq (h : ofText t = above ++ g :: below) :
    g.line = (Text.ended (above.map Segment.text)).lineBehind := by
  have lines : ∀ ls ∈ group (fileLines t), ls ≠ [] ∧ ∀ l ∈ ls, '\n' ∉ l := by
    intro ls hls
    refine ⟨ne_nil_of_mem_group hls, fun l hl hn => ?_⟩
    exact (Text.mem_of_mem_lines (mem_lines_of_mem_group hls hl) hn).1 rfl
  rw [line_of_number lines h, Text.lineBehind, Nat.add_comm]

theorem exists_joinLines_fileLines (t : Text) : ∃ x, t = Text.joinLines (fileLines t) ++ x := by
  unfold fileLines
  split
  · rename_i last
    obtain ⟨ls, lines⟩ := List.getLast?_eq_some_iff.1 last
    rw [lines, List.dropLast_concat]
    have text : t = Text.joinLines (ls ++ [[]]) := by rw [← lines, Text.joinLines_lines]
    by_cases none : ls = []
    · exact ⟨t, by simp [none]⟩
    · exact ⟨['\n'], by rw [text, joinLines_append none (by simp), Text.joinLines_singleton]⟩
  · exact ⟨[], by rw [Text.joinLines_lines, List.append_nil]⟩

/-- The text of a segment stands behind the texts of those above. -/
theorem exists_behind (h : ofText t = above ++ g :: below) :
    ∃ after, t = Text.ended (above.map Segment.text) ++ (g.text ++ after) := by
  obtain ⟨x, text⟩ := exists_joinLines_fileLines t
  have segments := joinLines_segments t
  rw [h, List.map_append, List.map_cons, Text.joinLines_append_cons] at segments
  obtain ⟨y, first⟩ : ∃ y, Text.joinLines (g.text :: below.map Segment.text) = g.text ++ y := by
    cases below with
    | nil => exact ⟨[], by simp⟩
    | cons b below => exact ⟨_, Text.joinLines_cons_cons _ _ _⟩
  refine ⟨y ++ x, ?_⟩
  rw [first] at segments
  rw [text, ← segments, List.append_assoc, List.append_assoc]

/-- The text in front of what a segment says: the segments above, and the blanks
    that it begins with. -/
def before (above : List Segment) (g : Segment) : Text :=
  Text.ended (above.map Segment.text) ++ g.text.takeWhile isBlank

theorem exists_before (h : ofText t = above ++ g :: below) :
    ∃ after, t = before above g ++ g.text.trim ++ after := by
  obtain ⟨after, text⟩ := exists_behind h
  obtain ⟨post, trimmed⟩ := Text.exists_trim g.text
  refine ⟨post ++ after, ?_⟩
  rw [text]
  conv_lhs => rw [trimmed]
  simp [before]

theorem lineBehind_before (h : ofText t = above ++ g :: below) :
    (before above g).lineBehind = g.line + (g.text.takeWhile isBlank).count '\n' := by
  rw [line_eq h, before, Text.lineBehind, Text.lineBehind, List.count_append]
  omega

/-! ## Segments of several lines -/

/-- Blank lines, below them a line that opens a quote, and the lines from there to
    one that closes it. -/
def Wrapped (ls : List Text) : Prop :=
  ∃ blanks l mid last q t, ls = blanks ++ l :: (mid ++ [last]) ∧ opening? l = some (q, t) ∧
    closes q false last = true

theorem wrapped_of_further? {ls : List Text} {n : Nat} (h : further? ls = some n) :
    Wrapped (ls.take (n + 1)) := by
  induction ls generalizing n with
  | nil => cases h
  | cons l ls ih =>
    unfold further? at h
    split at h
    · -- a blank line stands above what is found below
      obtain ⟨m, hm, rfl⟩ := Option.map_eq_some_iff.1 h
      obtain ⟨blanks, k, mid, last, q, t, lines, opens, closed⟩ := ih hm
      exact ⟨l :: blanks, k, mid, last, q, t, by rw [List.take_succ_cons, lines, List.cons_append],
        opens, closed⟩
    · split at h
      · cases h
      · rename_i q t opens
        split at h
        · cases h
        · obtain ⟨m, hm, rfl⟩ := Option.map_eq_some_iff.1 h
          obtain ⟨bound, closed, -⟩ := List.findIdx?_eq_some_iff_getElem.1 hm
          refine ⟨[], l, ls.take m, ls[m], q, t, ?_, opens, closed⟩
          rw [List.take_succ_cons, List.take_concat_get' ls m bound, List.nil_append]

/-- **A segment has one line, or its value runs over the last line.** -/
theorem single_or_wrapped {ls g : List Text} (h : g ∈ group ls) : (∃ l, g = [l]) ∨ Wrapped g := by
  fun_induction group ls with
  | case1 => cases h
  | case2 l ls n ih =>
    rcases List.mem_cons.1 h with rfl | h
    · cases further : further? (l :: ls) with
      | none =>
        left
        exact ⟨l, by simp [n, further]⟩
      | some m =>
        right
        have wrapped := wrapped_of_further? further
        rwa [show m = n by simp [n, further]] at wrapped
    · exact ih h

/-- What a segment of several lines says has several lines. -/
theorem newline_mem_trim (hg : g ∈ ofText t) (several : '\n' ∈ g.text) : '\n' ∈ g.text.trim := by
  obtain ⟨ls, hls, text⟩ := exists_of_mem_number hg
  rcases single_or_wrapped hls with ⟨l, rfl⟩ | ⟨blanks, l, mid, last, q, u, rfl, opens, closed⟩
  · rw [text, Text.joinLines_singleton] at several
    exact absurd rfl (Text.mem_of_mem_lines (mem_lines_of_mem_group hls (by simp)) several).1
  · -- the line feed stands between the separator and the closing quote
    obtain ⟨quote, -, v, s, rest, rfl, hs⟩ := of_opening? opens
    obtain ⟨pre, post, rfl, -⟩ := closes_iff.1 closed
    have separator : isBlank s = false := by rcases hs with rfl | rfl <;> decide
    have wrapped : g.text = (Text.ended blanks ++ v) ++
        s :: ((rest ++ '\n' :: (Text.ended mid ++ pre)) ++ q :: post) := by
      rw [text, Text.joinLines_append_cons, ← List.cons_append, Text.joinLines_append_cons,
        Text.ended_cons, Text.joinLines_singleton]
      simp
    rw [wrapped]
    exact Text.mem_trim_of_between separator (Value.isBlank_of_isQuote quote) (by simp)

/-! ## Where a segment begins to say something -/

section Begins

variable (h : ofText t = above ++ g :: below)
include h

/-- The lines from that of a segment on are blank up to the one that it begins to
    say something on. -/
theorem exists_lines_before (solid : g.text.trim ≠ []) :
    ∃ blanks l rest, (∀ k, t.lines[g.line - 1 + k]? = (blanks ++ l :: rest)[k]?) ∧
      (∀ b ∈ blanks, ∀ c ∈ b, isBlank c = true) ∧ (∃ c ∈ l, isBlank c = false) ∧
      (before above g).lineBehind = g.line + blanks.length := by
  obtain ⟨after, text⟩ := exists_behind h
  obtain ⟨c, hc, nonblank⟩ := Text.exists_nonblank solid
  have behind : ∃ c ∈ g.text ++ after, isBlank c = false :=
    ⟨c, List.mem_append_left after hc, nonblank⟩
  -- the blanks in front end within the segment
  have blanks_in_front : (g.text ++ after).takeWhile isBlank = g.text.takeWhile isBlank := by
    rw [List.takeWhile_append, if_neg]
    intro whole
    have all := (List.takeWhile_prefix isBlank (l := g.text)).eq_of_length whole
    have inside : c ∈ g.text.takeWhile isBlank := by
      rw [all]
      exact hc
    exact absurd (List.mem_takeWhile_imp inside) (by simp [nonblank])
  have lines := Text.drop_lines_ended (above.map Segment.text) (g.text ++ after)
  obtain ⟨blanks, l, rest, cut, blank, holds, length⟩ := Text.exists_lines_takeWhile behind
  rw [← text, cut] at lines
  refine ⟨blanks, l, rest, ?_, blank, holds, ?_⟩
  · intro k
    rw [← lines, List.getElem?_drop, line_eq h, Text.lineBehind, Nat.add_sub_cancel]
  · rw [lineBehind_before h, length, blanks_in_front]

theorem line_le_lineBehind : g.line ≤ (before above g).lineBehind := by
  rw [lineBehind_before h]
  omega

theorem one_le_line : 1 ≤ g.line := by
  rw [line_eq h, Text.lineBehind]
  omega

/-- Only blank lines stand between. -/
theorem blank_of_lt_lineBehind (solid : g.text.trim ≠ []) {i : Nat} (lo : g.line ≤ i)
    (hi : i < (before above g).lineBehind) :
    ∃ l, t.lines[i - 1]? = some l ∧ ∀ c ∈ l, isBlank c = true := by
  obtain ⟨blanks, l, rest, lines, blank, -, line⟩ := exists_lines_before h solid
  have first := one_le_line h
  have bound : i - g.line < blanks.length := by omega
  have index : g.line - 1 + (i - g.line) = i - 1 := by omega
  refine ⟨blanks[i - g.line], ?_, blank _ (List.getElem_mem bound)⟩
  rw [← index, lines, List.getElem?_append_left bound, List.getElem?_eq_getElem bound]

/-- A segment begins to say something on its own line unless that is blank. -/
theorem lineBehind_before_eq_iff (solid : g.text.trim ≠ []) :
    (before above g).lineBehind = g.line ↔
      ∃ l, t.lines[g.line - 1]? = some l ∧ ∃ c ∈ l, isBlank c = false := by
  obtain ⟨blanks, l, rest, lines, blank, holds, line⟩ := exists_lines_before h solid
  have first := lines 0
  cases blanks with
  | nil =>
    constructor
    · intro _
      exact ⟨l, first, holds⟩
    · intro _
      exact line
  | cons b blanks =>
    constructor
    · intro same
      rw [same, List.length_cons] at line
      omega
    · rintro ⟨l', hl', c, hc, nonblank⟩
      obtain rfl : b = l' := Option.some.inj (first.symm.trans hl')
      exact absurd (blank b List.mem_cons_self c hc) (by simp [nonblank])

/-- So does a segment that says one line. -/
theorem lineBehind_before_of_not_mem (line : '\n' ∉ g.text.trim) :
    (before above g).lineBehind = g.line := by
  have mem : g ∈ ofText t := by simp [h]
  have whole : '\n' ∉ g.text.takeWhile isBlank := by
    intro feed
    exact line (newline_mem_trim mem ((List.takeWhile_sublist isBlank).subset feed))
  rw [lineBehind_before h, List.count_eq_zero_of_not_mem whole, Nat.add_zero]

end Begins

end Segment

/-! ## The reported line -/

/-- Of the segments of a text a reader takes those `above`, and the next one it
    rejects. -/
structure Reader.Rejects (layout : Layout) (t : Text) (above : List Segment) (g : Segment)
    (e : Fault) : Prop where
  segments : ∃ below, Segment.ofText t = above ++ g :: below
  rejected : ∃ s, feedAll layout {} above = .ok s ∧ s.feed layout g = .error e

theorem Reader.exists_rejects {layout : Layout} {t : Text} {e : Fault}
    (h : RowSet.ofText layout t = .error e) :
    ∃ above g, Rejects layout t.normalizeNewlines above g e := by
  obtain ⟨above, g, below, s, segments, taken, rejected⟩ :=
    feedAll_error (RowSet.feedAll_of_ofText_error h)
  exact ⟨above, g, ⟨below, segments⟩, s, taken, rejected⟩

namespace RowSet

open Segment (before)

/-- **Where the statement stands that a text is rejected for.**  It begins on the
    reported line, or below it with blank lines between.  So the report points
    to the statement exactly if the reported line is not blank, and in any case
    if the statement has one line. -/
theorem reported_line {layout : Layout} {t : Text} {e : Fault} (h : ofText layout t = .error e) :
    ∃ above g, Reader.Rejects layout t.normalizeNewlines above g e ∧
      e = .malformed g.line g.text.trim ∧ g.text.trim ≠ [] ∧
      (∃ after, t.normalizeNewlines = before above g ++ g.text.trim ++ after) ∧
      g.line ≤ (before above g).lineBehind ∧
      (∀ i, g.line ≤ i → i < (before above g).lineBehind →
        ∃ l, t.normalizeNewlines.lines[i - 1]? = some l ∧ ∀ c ∈ l, isBlank c = true) ∧
      ((before above g).lineBehind = g.line ↔
        ∃ l, t.normalizeNewlines.lines[g.line - 1]? = some l ∧ ∃ c ∈ l, isBlank c = false) ∧
      ('\n' ∉ g.text.trim → (before above g).lineBehind = g.line) := by
  obtain ⟨above, g, rejects⟩ := Reader.exists_rejects h
  obtain ⟨below, segments⟩ := rejects.segments
  obtain ⟨s, -, rejected⟩ := rejects.rejected
  obtain ⟨report, solid⟩ := Reader.feed_error rejected
  refine ⟨above, g, rejects, report, solid, Segment.exists_before segments,
    Segment.line_le_lineBehind segments, ?_, Segment.lineBehind_before_eq_iff segments solid,
    Segment.lineBehind_before_of_not_mem segments⟩
  intro i lo hi
  exact Segment.blank_of_lt_lineBehind segments solid lo hi

/-- A comment, a value of two lines and a blank line stand above the statement. -/
theorem reported_line_five :
    ofText {} "# c\r\nB='x\ny'\n \t\n  foo bar\n".toList = .error (.malformed 5 "foo bar".toList) ∧
      ∃ front after : Text,
        "# c\nB='x\ny'\n \t\n  foo bar\n".toList = front ++ "foo bar".toList ++ after ∧
          front.lineBehind = 5 := by
  have fails : ofText {} "# c\r\nB='x\ny'\n \t\n  foo bar\n".toList =
      .error (.malformed 5 "foo bar".toList) := by decide +kernel
  obtain ⟨above, g, -, report, -, ⟨after, text⟩, -, -, -, one_line⟩ := reported_line fails
  obtain ⟨line, content⟩ := Fault.malformed.inj report
  rw [← content] at text one_line
  have normal : Text.normalizeNewlines "# c\r\nB='x\ny'\n \t\n  foo bar\n".toList =
      "# c\nB='x\ny'\n \t\n  foo bar\n".toList := by decide
  exact ⟨fails, before above g, after, normal ▸ text, (one_line (by decide)).trans line.symm⟩

/-- A blank line stands above the statement, which has two lines: the blank line
    is reported. -/
theorem reported_line_blank :
    ofText {} "\nBAD KEY='x\ny'".toList = .error (.malformed 1 "BAD KEY='x\ny'".toList) ∧
      Segment.ofText "\nBAD KEY='x\ny'".toList = [⟨1, "\nBAD KEY='x\ny'".toList⟩] ∧
      "\nBAD KEY='x\ny'".toList =
        before [] ⟨1, "\nBAD KEY='x\ny'".toList⟩ ++ "BAD KEY='x\ny'".toList ∧
      (before [] ⟨1, "\nBAD KEY='x\ny'".toList⟩).lineBehind = 2 := by
  decide +kernel

end RowSet

end EnvFile
