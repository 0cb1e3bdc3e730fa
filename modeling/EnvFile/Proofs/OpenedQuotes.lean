import EnvFile.Proofs.ClosingBytes

/-! # Opened quotes among bytes

    Which quote a segment opens is decided by the first line that is not blank.
    `Segment.further?` finds that line among the lines of a text, where
    `Bytes.behindSeparator?` and `Bytes.quoteBehind?` search through the bytes of
    the whole text.  Any text begins in one of four ways (`beginning`), and in each
    of them the two come to the same: the text opens a quote for both, or for
    neither (`closed_or_opens`). -/

namespace EnvFile

namespace Segment

/-! ## Further lines -/

theorem further?_blanks {blanks : List Text} (blank : ∀ b ∈ blanks, b.all isAsciiBlank = true)
    (ls : List Text) : further? (blanks ++ ls) = (further? ls).map (· + blanks.length) := by
  induction blanks with
  | nil => simp
  | cons b blanks ih =>
    rw [List.forall_mem_cons] at blank
    rw [List.cons_append, further?, if_pos blank.1, ih blank.2, Option.map_map]
    rfl

/-- Blank lines have no further lines, if only blank lines stand below. -/
theorem further?_of_blank {ls : List Text} (blank : ∀ l ∈ ls, l.all isAsciiBlank = true) :
    further? ls = none := by
  have := further?_blanks blank []
  rwa [List.append_nil] at this

/-- An empty last line makes no difference. -/
theorem further?_concat_nil (ls : List Text) : further? (ls ++ [[]]) = further? ls := by
  induction ls with
  | nil => rfl
  | cons l ls ih =>
    rw [List.cons_append, further?, further?, ih]
    split
    · rfl
    · split
      · rfl
      · rw [List.findIdx?_append]
        cases ls.findIdx? (closes _ false) <;> simp [closes]

theorem further?_fileLines (t : Text) : further? (fileLines t) = further? t.lines := by
  unfold fileLines
  split
  · rename_i last
    obtain ⟨ls, lines⟩ := List.getLast?_eq_some_iff.1 last
    rw [lines, List.dropLast_concat, further?_concat_nil]
  · rfl

/-- How many lines belong to the first because of the quote that it opens. -/
def behind? (opened : Option (Char × Text)) (below : List Text) : Option Nat :=
  match opened with
  | none => none
  | some (q, u) =>
    if closes q false u then none else (below.findIdx? (closes q false)).map (· + 1)

theorem opening?_blank_append {blank : Text} (h : ∀ c ∈ blank, isAsciiBlank c = true) (l : Text) :
    opening? (blank ++ l) = opening? l := by
  unfold opening?
  rw [List.dropWhile_append_of_pos h]

/-- The first line that is not blank decides. -/
theorem further?_lines {indent t first : Text} {below : List Text}
    (blank : ∀ c ∈ indent, isAsciiBlank c = true) (lines : t.lines = first :: below)
    (solid : first.all isAsciiBlank = false) :
    further? (indent ++ t).lines =
      (behind? (opening? first) below).map (· + indent.count '\n') := by
  obtain ⟨above, last, own⟩ :=
    (List.eq_nil_or_concat' indent.lines).resolve_left (Text.lines_ne_nil indent)
  have length : above.length = indent.count '\n' := by
    have counted := Text.length_lines indent
    rw [own, Text.lineBehind, List.length_append, List.length_singleton] at counted
    exact Nat.succ.inj counted
  have blanks : ∀ l ∈ above ++ [last], ∀ c ∈ l, isAsciiBlank c = true :=
    fun l hl c hc => blank c (Text.mem_of_mem_lines (own ▸ hl) hc).2
  have above_blank : ∀ l ∈ above, l.all isAsciiBlank = true :=
    fun l hl => List.all_eq_true.2 (blanks l (List.mem_append_left _ hl))
  have last_blank := blanks last (List.mem_append_right _ (List.mem_singleton_self _))
  have whole : (last ++ first).all isAsciiBlank = false := by
    rw [List.all_append, solid, Bool.and_false]
  rw [Text.lines_append_lines own lines, further?_blanks above_blank, length, further?,
    if_neg (by simp [whole]), opening?_blank_append last_blank]
  rfl

end Segment

namespace Bytes

open Utf8

/-! ## Classes of characters -/

theorem tells_solid :
    Tells (fun b => !isOneOf [' ', '\t', '\n', '\x0c', '\r'] b) (fun c => !isAsciiBlank c) := by
  have blank : isAsciiBlank = [' ', '\t', '\n', '\x0c', '\r'].contains := by
    funext c
    simp [isAsciiBlank, Bool.beq_eq_decide_eq, Bool.decide_or, Bool.or_assoc]
  rw [blank]
  exact (tells_isOneOf rfl).not

theorem tells_ungap : Tells (fun b => !isOneOf [' ', '\t'] b) (fun c => !isGap c) := by
  have gap : isGap = [' ', '\t'].contains := by
    funext c
    simp [isGap, Bool.beq_eq_decide_eq, Bool.decide_or]
  rw [gap]
  exact (tells_isOneOf rfl).not

theorem tells_quote : Tells (isOneOf ['"', '\'']) Value.isQuote := by
  have quote : Value.isQuote = ['"', '\''].contains := by
    funext c
    simp [Value.isQuote, Bool.beq_eq_decide_eq, Bool.decide_or]
  rw [quote]
  exact tells_isOneOf rfl

/-- The characters that a search for a separator stops at. -/
def stops (c : Char) : Bool :=
  ['=', ':', '\n'].contains c

theorem tells_stops : Tells (isOneOf ['=', ':', '\n']) stops :=
  tells_isOneOf rfl

theorem drop_encode (t u : Text) : (encode (t ++ u)).drop (encode t).length = encode u := by
  rw [encode_append, List.drop_left]

/-! ## The separator -/

theorem behindSeparator?_blank {t : Text} (blank : ∀ c ∈ t, isAsciiBlank c = true) :
    behindSeparator? (encode t) = none := by
  unfold behindSeparator?
  rw [findIdx?_encode_eq_none tells_solid (by simpa using blank)]
  rfl

section Statement

variable {indent : Text} (blank : ∀ c ∈ indent, isAsciiBlank c = true)
include blank

theorem findIdx?_solid {c : Char} (solid : isAsciiBlank c = false) (t : Text) :
    (encode (indent ++ c :: t)).findIdx? (fun b => !isOneOf [' ', '\t', '\n', '\x0c', '\r'] b) =
      some (encode indent).length :=
  findIdx?_encode tells_solid (by simpa using blank) (by simp [solid]) t

theorem behindSeparator?_comment (t : Text) :
    behindSeparator? (encode (indent ++ '#' :: t)) = none := by
  unfold behindSeparator?
  rw [findIdx?_solid blank (by decide), Option.bind_eq_bind, Option.bind_some,
    if_pos ((getElem?_encode_eq (by decide)).2 rfl)]

variable {t : Text} (begins : ∃ c u, t = c :: u ∧ isAsciiBlank c = false ∧ c ≠ '#')
include begins

theorem behindSeparator?_unseparated (plain : ∀ c ∈ t, stops c = false) :
    behindSeparator? (encode (indent ++ t)) = none := by
  obtain ⟨c, u, rfl, solid, unmarked⟩ := begins
  unfold behindSeparator?
  rw [findIdx?_solid blank solid, Option.bind_eq_bind, Option.bind_some,
    if_neg (mt (getElem?_encode_eq (by decide)).1 unmarked), drop_encode,
    findIdx?_encode_eq_none tells_stops plain]
  rfl

/-- The search stops at the first separator or line feed. -/
theorem behindSeparator?_stop {v w : Text} {s : Char} (cut : t = v ++ s :: w)
    (plain : ∀ c ∈ v, stops c = false) (hs : stops s = true) :
    behindSeparator? (encode (indent ++ t)) =
      if s = '\n' then none else some (encode (indent ++ v ++ [s])).length := by
  have ascii : s.toNat < 128 := by
    have member : s = '=' ∨ s = ':' ∨ s = '\n' := by simpa [stops] using hs
    rcases member with rfl | rfl | rfl <;> decide
  have separator : (encode t).findIdx? (isOneOf ['=', ':', '\n']) = some (encode v).length := by
    rw [cut]
    exact findIdx?_encode tells_stops plain hs w
  have index : (encode v).length + (encode indent).length = (encode (indent ++ v)).length := by
    rw [encode_append, List.length_append, Nat.add_comm]
  have next : (encode (indent ++ v)).length + 1 = (encode (indent ++ v ++ [s])).length := by
    rw [encode_append (indent ++ v), List.length_append, encode_cons, encodeChar_of_ascii ascii]
    rfl
  have feed : (encode (indent ++ t))[(encode (indent ++ v)).length]? = some '\n'.toUInt8 ↔
      s = '\n' := by
    rw [cut, ← List.append_assoc]
    exact getElem?_encode_eq (by decide)
  obtain ⟨c, u, rfl, solid, unmarked⟩ := begins
  unfold behindSeparator?
  rw [findIdx?_solid blank solid, Option.bind_eq_bind, Option.bind_some,
    if_neg (mt (getElem?_encode_eq (by decide)).1 unmarked), drop_encode, separator,
    Option.bind_some]
  dsimp only
  rw [index, next]
  simp only [feed]

/-- There is none on a line without separators. -/
theorem behindSeparator?_line {after : Text} (plain : ∀ c ∈ t, stops c = false)
    (ends : after.EndsLine) : behindSeparator? (encode (indent ++ (t ++ after))) = none := by
  have begins' : ∃ c u, t ++ after = c :: u ∧ isAsciiBlank c = false ∧ c ≠ '#' := by
    obtain ⟨c, u, rfl, first⟩ := begins
    exact ⟨c, u ++ after, rfl, first⟩
  rcases ends with rfl | ends
  · rw [List.append_nil]
    exact behindSeparator?_unseparated blank begins plain
  · obtain ⟨w, rfl⟩ := List.head?_eq_some_iff.1 ends
    rw [behindSeparator?_stop blank begins' rfl plain (by decide), if_pos rfl]

end Statement

/-! ## The quote behind it -/

theorem quoteBehind?_gap {front gap : Text} (hgap : ∀ c ∈ gap, isGap c = true) :
    quoteBehind? (encode (front ++ gap)) (encode front).length = none := by
  unfold quoteBehind?
  rw [drop_encode, findIdx?_encode_eq_none tells_ungap (by simpa using hgap)]
  rfl

theorem quoteBehind?_value {front gap : Text} (hgap : ∀ c ∈ gap, isGap c = true) {c : Char}
    (hc : isGap c = false) (t : Text) :
    quoteBehind? (encode (front ++ (gap ++ c :: t))) (encode front).length =
      if Value.isQuote c then some (c.toUInt8, (encode (front ++ gap ++ [c])).length) else none := by
  have index : (encode gap).length + (encode front).length = (encode (front ++ gap)).length := by
    rw [encode_append, List.length_append, Nat.add_comm]
  obtain ⟨b, hb, get⟩ := getElem?_encode (t := front ++ gap) (c := c) (u := t)
  rw [List.append_assoc] at get
  unfold quoteBehind?
  rw [drop_encode, findIdx?_encode tells_ungap (by simpa using hgap) (by simp [hc]),
    Option.bind_eq_bind, Option.bind_some]
  dsimp only
  rw [index, get, Option.bind_eq_bind, Option.bind_some, tells_quote c b hb]
  cases quote : Value.isQuote c with
  | false => rfl
  | true =>
    have ascii := ascii_of_isQuote quote
    rw [encodeChar_of_ascii ascii, List.mem_singleton] at hb
    rw [hb, encode_append (front ++ gap), List.length_append, encode_cons,
      encodeChar_of_ascii ascii]
    rfl

end Bytes

namespace Segment

open Bytes Utf8

/-! ## How a text begins -/

/-- What a text begins with, ASCII blanks aside: nothing, a comment marker, a
    line without separators, or a text in front of a separator. -/
inductive Beginning : Text → Prop
  | blank {t : Text} (blank : ∀ c ∈ t, isAsciiBlank c = true) : Beginning t
  | comment {indent : Text} (blank : ∀ c ∈ indent, isAsciiBlank c = true) (t : Text) :
      Beginning (indent ++ '#' :: t)
  | line {indent v after : Text} (blank : ∀ c ∈ indent, isAsciiBlank c = true)
      (begins : ∃ c u, v = c :: u ∧ isAsciiBlank c = false ∧ c ≠ '#')
      (plain : ∀ c ∈ v, stops c = false) (ends : after.EndsLine) : Beginning (indent ++ (v ++ after))
  | separated {indent v : Text} {s : Char} (blank : ∀ c ∈ indent, isAsciiBlank c = true)
      (begins : ∀ c, v.head? = some c → isAsciiBlank c = false ∧ c ≠ '#')
      (plain : ∀ c ∈ v, stops c = false) (separator : s = '=' ∨ s = ':') (w : Text) :
      Beginning (indent ++ (v ++ s :: w))

theorem beginning (t : Text) : Beginning t := by
  obtain ⟨indent, blank, rfl | ⟨c, u, rfl, solid⟩⟩ := Text.exists_run isAsciiBlank t
  · exact .blank blank
  by_cases mark : c = '#'
  · rw [mark]
    exact .comment blank u
  have feed : c ≠ '\n' := by
    rintro rfl
    exact absurd solid (by decide)
  obtain ⟨v, run, cut⟩ := Text.exists_run (fun d => !stops d) (c :: u)
  have plain : ∀ d ∈ v, stops d = false := by simpa using run
  rcases cut with rfl | ⟨s, w, cut, stop⟩
  · rw [← List.append_nil (c :: u)]
    exact .line blank ⟨c, u, rfl, solid, mark⟩ plain (.inl rfl)
  have begins : ∀ d, v.head? = some d → isAsciiBlank d = false ∧ d ≠ '#' := by
    intro d hd
    have first : (c :: u).head? = some d := by rw [cut, List.head?_append, hd]; rfl
    obtain rfl : c = d := by simpa using first
    exact ⟨solid, mark⟩
  rw [cut]
  by_cases newline : s = '\n'
  · subst newline
    cases v with
    | nil => exact absurd (List.cons.inj cut).1 feed
    | cons d v => exact .line blank ⟨d, v, rfl, begins d rfl⟩ plain (.inr rfl)
  · have separator : s = '=' ∨ s = ':' := by
      have member : stops s = true := by simpa using stop
      simpa [stops, newline] using member
    exact .separated blank begins plain separator w

/-! ## Both views of an opened quote -/

/-- A text opens the quote `q` behind `front`, both for its bytes and for its
    lines. -/
structure Opens (t front : Text) (q : Char) (behind : Text) : Prop where
  text : t = front ++ q :: behind
  quote : Value.isQuote q = true
  scanned : (behindSeparator? (encode t)).bind (quoteBehind? (encode t)) =
    some (q.toUInt8, (encode (front ++ [q])).length)
  framed : ∀ u below, behind.lines = u :: below →
    further? t.lines = (behind? (some (q, u)) below).map (· + front.count '\n')

/-- A text opens no quote, neither for its bytes nor for its lines. -/
structure Closed (t : Text) : Prop where
  scanned : (behindSeparator? (encode t)).bind (quoteBehind? (encode t)) = none
  framed : further? t.lines = none

section Beginnings

variable {indent : Text} (blank : ∀ c ∈ indent, isAsciiBlank c = true)
include blank

theorem closed_of_blank : Closed indent where
  scanned := by rw [behindSeparator?_blank blank, Option.bind_none]
  framed := further?_of_blank fun _ hl =>
    List.all_eq_true.2 fun c hc => blank c (Text.mem_of_mem_lines hl hc).2

theorem closed_of_comment (t : Text) : Closed (indent ++ '#' :: t) where
  scanned := by rw [behindSeparator?_comment blank, Option.bind_none]
  framed := by
    obtain ⟨l, lines⟩ := Text.exists_lines_cons (show '#' ≠ '\n' by decide) t
    rw [further?_lines blank lines rfl, opening?_mark]
    rfl

theorem closed_of_line {v after : Text}
    (begins : ∃ c u, v = c :: u ∧ isAsciiBlank c = false ∧ c ≠ '#')
    (plain : ∀ c ∈ v, stops c = false) (ends : after.EndsLine) : Closed (indent ++ (v ++ after)) where
  scanned := by rw [behindSeparator?_line blank begins plain ends, Option.bind_none]
  framed := by
    have line : '\n' ∉ v := fun hn => absurd (plain _ hn) (by decide)
    have solid : v.all isAsciiBlank = false := by
      obtain ⟨c, u, rfl, first, -⟩ := begins
      simp [first]
    have unseparated : opening? v = none :=
      opening?_unseparated (fun hd => absurd (plain _ hd) (by decide))
        (fun hd => absurd (plain _ hd) (by decide))
    obtain ⟨below, lines⟩ := Text.exists_lines_endsLine v ends
    rw [Text.lines_of_not_mem line, List.singleton_append] at lines
    rw [further?_lines blank lines solid, unseparated]
    rfl

end Beginnings

/-! ## What stands behind a separator -/

theorem opened?_gap {gap : Text} (h : ∀ c ∈ gap, isGap c = true) : opened? gap = none := by
  unfold opened?
  rw [List.dropWhile_eq_nil_iff.2 h]

theorem opened?_value {gap : Text} (h : ∀ c ∈ gap, isGap c = true) {c : Char}
    (hc : isGap c = false) (t : Text) :
    opened? (gap ++ c :: t) = if Value.isQuote c then some (c, t) else none := by
  unfold opened?
  rw [(Text.span_append_cons h hc t).2]

section Separated

variable {indent v : Text} {s : Char} (blank : ∀ c ∈ indent, isAsciiBlank c = true)
  (begins : ∀ c, v.head? = some c → isAsciiBlank c = false ∧ c ≠ '#')
  (plain : ∀ c ∈ v, stops c = false) (separator : s = '=' ∨ s = ':')
include blank begins plain separator

omit blank begins in
theorem newline_not_mem_heading : '\n' ∉ v ++ [s] := by
  intro h
  rcases List.mem_append.1 h with h | h
  · exact absurd (plain _ h) (by decide)
  · rw [← List.mem_singleton.1 h] at separator
    exact absurd separator (by decide)

theorem further?_separated {w first : Text} {below : List Text} (lines : w.lines = first :: below) :
    further? (indent ++ (v ++ s :: w)).lines =
      (behind? (opened? first) below).map (· + indent.count '\n') := by
  have line := newline_not_mem_heading plain separator
  have whole : (v ++ s :: w).lines = (v ++ s :: first) :: below := by
    simpa using Text.lines_append_line line lines
  have solid : (v ++ s :: first).all isAsciiBlank = false := by
    have hs : isAsciiBlank s = false := by rcases separator with rfl | rfl <;> decide
    simp [hs]
  have unseparated : ∀ c ∈ v, c ≠ '=' ∧ c ≠ ':' := by
    intro c hc
    have := plain c hc
    constructor
    · rintro rfl
      exact absurd this (by decide)
    · rintro rfl
      exact absurd this (by decide)
  have opens := @opening?_separator [] v s (fun c hc => nomatch hc) begins unseparated
    separator first
  rw [List.nil_append] at opens
  rw [further?_lines blank whole solid, opens]

theorem behindSeparator?_separated (w : Text) :
    behindSeparator? (encode (indent ++ (v ++ s :: w))) =
      some (encode (indent ++ v ++ [s])).length := by
  have first : ∃ c u, v ++ s :: w = c :: u ∧ isAsciiBlank c = false ∧ c ≠ '#' := by
    cases v with
    | nil => rcases separator with rfl | rfl <;> exact ⟨_, w, rfl, by decide, by decide⟩
    | cons c v => exact ⟨c, _, rfl, begins c rfl⟩
  have hs : stops s = true := by rcases separator with rfl | rfl <;> decide
  have feed : s ≠ '\n' := by rcases separator with rfl | rfl <;> decide
  rw [behindSeparator?_stop blank first rfl plain hs, if_neg feed]

/-- What a text opens whose first line that is not blank has a separator. -/
theorem closed_or_opens_of_separated (w : Text) :
    Closed (indent ++ (v ++ s :: w)) ∨
      ∃ front q behind, Opens (indent ++ (v ++ s :: w)) front q behind := by
  have heading := newline_not_mem_heading plain separator
  have front (u : Text) : indent ++ (v ++ s :: u) = indent ++ v ++ [s] ++ u := by simp
  have scanned := behindSeparator?_separated blank begins plain separator w
  obtain ⟨gap, hgap, cut⟩ := Text.exists_run isGap w
  have gap_line : '\n' ∉ gap := newline_not_mem_of_isGap hgap
  rcases cut with rfl | ⟨c, t, rfl, hc⟩
  · -- nothing stands behind the separator
    refine .inl ⟨?_, ?_⟩
    · rw [scanned, Option.bind_some, front, quoteBehind?_gap hgap]
    · rw [further?_separated blank begins plain separator (Text.lines_of_not_mem gap_line),
        opened?_gap hgap]
      rfl
  have found := @quoteBehind?_value (indent ++ v ++ [s]) gap hgap c hc t
  rw [← front] at found
  obtain ⟨first, below, lines⟩ := List.exists_cons_of_ne_nil (Text.lines_ne_nil (gap ++ c :: t))
  have framed := further?_separated blank begins plain separator lines
  cases quote : Value.isQuote c with
  | false =>
    refine .inl ⟨by rw [scanned, Option.bind_some, found, quote]; rfl, ?_⟩
    by_cases feed : c = '\n'
    · -- the line ends behind the gap
      rw [feed, Text.lines_append, Text.lines_of_not_mem gap_line, List.singleton_append] at lines
      rw [framed, ← (List.cons.inj lines).1, opened?_gap hgap]
      rfl
    · obtain ⟨l, own⟩ := Text.exists_lines_cons feed t
      rw [Text.lines_append_line gap_line own] at lines
      rw [framed, ← (List.cons.inj lines).1, opened?_value hgap hc, quote]
      rfl
  | true =>
    have feed : c ≠ '\n' := newline_ne_of_isQuote quote
    refine .inr ⟨indent ++ v ++ [s] ++ gap, c, t, by simp, quote, ?_, fun u lower behind => ?_⟩
    · rw [scanned, Option.bind_some, found, quote]
      rfl
    · have whole : '\n' ∉ gap ++ [c] := by simp [gap_line, Ne.symm feed]
      have line := Text.lines_append_line whole behind
      rw [List.append_assoc, List.singleton_append, lines] at line
      obtain ⟨rfl, rfl⟩ := List.cons.inj line
      have count : (indent ++ v ++ [s] ++ gap).count '\n' = indent.count '\n' := by
        have none : (v ++ [s] ++ gap).count '\n' = 0 := by
          rw [List.count_append, List.count_eq_zero.2 heading, List.count_eq_zero.2 gap_line]
        rw [← Nat.add_zero (indent.count '\n'), ← none, ← List.count_append]
        simp
      rw [framed, List.append_assoc, List.singleton_append, opened?_value hgap hc, quote, count]
      rfl

end Separated

/-- **A text opens a quote for its bytes and for its lines, or for neither.** -/
theorem closed_or_opens (t : Text) : Closed t ∨ ∃ front q behind, Opens t front q behind := by
  cases beginning t with
  | blank blank => exact .inl (closed_of_blank blank)
  | comment blank t => exact .inl (closed_of_comment blank t)
  | line blank begins plain ends => exact .inl (closed_of_line blank begins plain ends)
  | separated blank begins plain separator w =>
    exact closed_or_opens_of_separated blank begins plain separator w

end Segment

end EnvFile
