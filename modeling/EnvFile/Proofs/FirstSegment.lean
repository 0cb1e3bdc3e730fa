import EnvFile.Proofs.OpenedQuotes

/-! # Where the first segment ends

    The bytes and the lines of a text agree on where its first segment ends:
    where the quote of its value is closed, if that takes several lines
    (`exists_ends`), and else at the end of the first line (`exists_first`).  The
    lines of the segment are the first group of lines, and those of what stands
    below it are the other groups (`First.group_eq`). -/

namespace EnvFile

namespace Segment

open Bytes Utf8

/-! ## Values of several lines -/

/-- What the bytes and the lines of a text say about its first segment, if its
    value is quoted over several lines. -/
structure Ends (t : Text) (found : Option Text) : Prop where
  scanned : quotedEnd (encode t) = .ok (found.map fun u => (encode u).length)
  framed : further? t.lines = found.map (·.count '\n')
  cut : ∀ u ∈ found, ∃ after, t = u ++ after ∧ after.EndsLine
  last : ∀ u ∈ found, ∃ c, u.getLast? = some c ∧ c ≠ '\n'

/-- Where a quote closes, a text is enclosed. -/
theorem exists_encloses {q : Char} {t : Text} (h : closes q false t = true) :
    ∃ body rest, t = body ++ q :: rest ∧ Encloses q body := by
  induction t using List.reverseRecOn with
  | nil => cases h
  | append_singleton t c ih =>
    cases inside : closes q false t with
    | true =>
      obtain ⟨body, rest, rfl, encloses⟩ := ih inside
      exact ⟨body, rest ++ [c], by simp, encloses⟩
    | false =>
      rw [closes_append, inside, Bool.false_or] at h
      have last : c = q ∧ escapesNext q false t = false := by simpa [closes] using h
      exact ⟨t, [], by rw [last.1], encloses_iff.2 ⟨inside, last.2⟩⟩

namespace Opens

variable {t front behind : Text} {q : Char} (h : Opens t front q behind)
include h

theorem quotedEnd_eq :
    quotedEnd (encode t) =
      closingEnd (encode (front ++ q :: behind)) q.toUInt8 false (encode (front ++ [q])).length := by
  unfold quotedEnd
  rw [h.scanned, ← h.text]

theorem ends_of_unclosed (unclosed : closes q false behind = false) : Ends t none where
  scanned := by rw [h.quotedEnd_eq, closingEnd_unclosed h.quote unclosed]; rfl
  framed := by
    obtain ⟨u, below, lines⟩ := List.exists_cons_of_ne_nil (Text.lines_ne_nil behind)
    rw [closes_lines (newline_ne_of_isQuote h.quote), lines] at unclosed
    have silent : closes q false u = false ∧ ∀ m ∈ below, closes q false m = false := by
      simpa using unclosed
    have none : below.findIdx? (closes q false) = none := List.findIdx?_eq_none_iff.2 silent.2
    rw [h.framed u below lines]
    simp [behind?, silent.1, none]
  cut _ hu := nomatch hu
  last _ hu := nomatch hu

section Enclosed

variable {body tail after : Text} (text : behind = body ++ q :: (tail ++ after))
  (encloses : Encloses q body) (line : '\n' ∉ tail) (ends : after.EndsLine)
include text encloses line ends

theorem scanned_of_encloses :
    quotedEnd (encode t) =
      .ok (if '\n' ∈ body then some (encode (front ++ q :: (body ++ q :: tail))).length
        else none) := by
  rw [h.quotedEnd_eq, text]
  exact closingEnd_enclosed h.quote encloses line ends

theorem ends_of_line (single : '\n' ∉ body) : Ends t none where
  scanned := by
    rw [h.scanned_of_encloses text encloses line ends, if_neg single]
    rfl
  framed := by
    have feed := newline_ne_of_isQuote h.quote
    have whole : '\n' ∉ body ++ q :: tail := by simp [single, line, Ne.symm feed]
    obtain ⟨below, lines⟩ := Text.exists_lines_endsLine (body ++ q :: tail) ends
    rw [List.append_assoc, List.cons_append, ← text, Text.lines_of_not_mem whole,
      List.singleton_append] at lines
    rw [h.framed _ _ lines]
    simp [behind?, encloses.closes tail]
  cut _ hu := nomatch hu
  last _ hu := nomatch hu

theorem ends_of_lines (several : '\n' ∈ body) :
    Ends t (some (front ++ q :: (body ++ q :: tail))) where
  scanned := by
    rw [h.scanned_of_encloses text encloses line ends, if_pos several]
    rfl
  framed := by
    have feed := newline_ne_of_isQuote h.quote
    have tail_line : '\n' ∉ q :: tail := by simp [line, Ne.symm feed]
    obtain ⟨below, lines⟩ := Text.exists_lines_endsLine (body ++ q :: tail) ends
    obtain ⟨first, mid, last, own, first_open, mid_open, last_closed⟩ :=
      exists_lines_of_encloses encloses h.quote several line
    have wrapped : (body ++ q :: tail).lines = first :: (mid ++ [last ++ q :: tail]) := by
      simpa using Text.lines_wrap (u := []) List.not_mem_nil tail_line own
    have count : (front ++ q :: (body ++ q :: tail)).count '\n' =
        front.count '\n' + (mid.length + 1) := by
      have length := Text.length_lines (body ++ q :: tail)
      rw [wrapped, Text.lineBehind] at length
      rw [List.count_append, List.count_cons_of_ne feed]
      simp only [List.length_cons, List.length_append, List.length_nil] at length
      omega
    rw [List.append_assoc, List.cons_append, ← text, wrapped, List.cons_append] at lines
    rw [h.framed _ _ lines, behind?, first_open, findIdx?_closes mid_open last_closed below,
      Option.map_some, if_neg Bool.false_ne_true, Option.map_some, Option.map_some, count,
      Nat.add_comm]
  cut := by
    rintro u ⟨⟩
    exact ⟨after, by rw [h.text, text]; simp, ends⟩
  last := by
    rintro u ⟨⟩
    have feed := newline_ne_of_isQuote h.quote
    obtain ⟨init, c, cut⟩ :=
      (List.eq_nil_or_concat' (q :: tail)).resolve_left (List.cons_ne_nil q tail)
    have concat : front ++ q :: (body ++ q :: tail) = front ++ q :: (body ++ init) ++ [c] := by
      rw [cut]
      simp
    refine ⟨c, by rw [concat, List.getLast?_concat], ?_⟩
    rintro rfl
    have member : '\n' ∈ q :: tail := by simp [cut]
    simp [line, Ne.symm feed] at member

end Enclosed

theorem exists_ends : ∃ found, Ends t found := by
  cases closed : closes q false behind with
  | false => exact ⟨none, h.ends_of_unclosed closed⟩
  | true =>
    obtain ⟨body, rest, text, encloses⟩ := exists_encloses closed
    obtain ⟨tail, after, rfl, line, ends⟩ := Text.exists_endsLine rest
    by_cases several : '\n' ∈ body
    · exact ⟨_, h.ends_of_lines text encloses line ends several⟩
    · exact ⟨none, h.ends_of_line text encloses line ends several⟩

end Opens

theorem exists_ends (t : Text) : ∃ found, Ends t found := by
  rcases closed_or_opens t with closed | ⟨front, q, behind, opens⟩
  · have scanned : quotedEnd (encode t) = .ok none := by
      unfold quotedEnd
      rw [closed.scanned]
    exact ⟨none, scanned, closed.framed, fun _ hu => (nomatch hu), fun _ hu => (nomatch hu)⟩
  · exact opens.exists_ends

/-! ## The first segment -/

/-- The first segment of a text is `u`, for the bytes and for the lines. -/
structure First (t u after : Text) : Prop where
  text : t = u ++ after
  ends : after.EndsLine
  scanned : ∃ stop, quotedEnd (encode t) = .ok stop ∧
    stop.getD (lineEnd (encode t)) = (encode u).length
  framed : (further? t.lines).getD 0 = u.count '\n'
  last : after = [] → ∃ c, u.getLast? = some c ∧ c ≠ '\n'

theorem exists_first {t : Text} (ne : t ≠ []) : ∃ u after, First t u after := by
  obtain ⟨found, h⟩ := exists_ends t
  cases found with
  | some u =>
    obtain ⟨after, text, ends⟩ := h.cut u rfl
    exact ⟨u, after, text, ends, ⟨_, h.scanned, rfl⟩, by rw [h.framed]; rfl,
      fun _ => h.last u rfl⟩
  | none =>
    obtain ⟨line, after, rfl, whole, ends⟩ := Text.exists_endsLine t
    refine ⟨line, after, rfl, ends, ⟨_, h.scanned, lineEnd_encode whole ends⟩, ?_, ?_⟩
    · rw [h.framed, List.count_eq_zero.2 whole]
      rfl
    · rintro rfl
      rw [List.append_nil] at ne
      obtain ⟨init, c, rfl⟩ := (List.eq_nil_or_concat' line).resolve_left ne
      refine ⟨c, by simp, ?_⟩
      rintro rfl
      simp at whole

/-- The lines of a file above a line feed, and those below. -/
theorem fileLines_append (u rest : Text) : fileLines (u ++ '\n' :: rest) = u.lines ++ fileLines rest := by
  have some := Text.lines_ne_nil rest
  unfold fileLines
  rw [Text.lines_append, List.getLast?_append_of_ne_nil _ some]
  split
  · exact List.dropLast_append_of_ne_nil some
  · rfl

theorem group_lines {u : Text} {ls : List Text}
    (framed : (further? (u.lines ++ ls)).getD 0 = u.count '\n') :
    group (u.lines ++ ls) = u.lines :: group ls := by
  obtain ⟨l, more, lines⟩ := List.exists_cons_of_ne_nil (Text.lines_ne_nil u)
  have length : more.length = u.count '\n' := by
    have counted := Text.length_lines u
    rw [lines, Text.lineBehind, List.length_cons] at counted
    exact Nat.succ.inj counted
  rw [lines, List.cons_append] at framed ⊢
  rw [group, framed, ← length, List.take_left, List.drop_left]

namespace First

variable {t u after : Text} (h : First t u after)
include h

theorem fileLines_eq : fileLines t = u.lines ++ fileLines after.tail := by
  rw [h.text]
  rcases h.ends with rfl | ends
  · obtain ⟨c, last, feed⟩ := h.last rfl
    rw [List.append_nil, fileLines_of_getLast? last feed]
    exact (List.append_nil _).symm
  · obtain ⟨rest, rfl⟩ := List.head?_eq_some_iff.1 ends
    exact fileLines_append u rest

theorem group_eq : group (fileLines t) = u.lines :: group (fileLines after.tail) := by
  have framed := h.framed
  rw [← further?_fileLines, h.fileLines_eq] at framed
  rw [h.fileLines_eq, group_lines framed]

end First

end Segment

end EnvFile
