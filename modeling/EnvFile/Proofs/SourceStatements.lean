import EnvFile.Proofs.Enclosing

/-! # Statements as a file holds them

    A file is put together from statements: blank lines, comments, lines
    without a separator, and assignments whose value is bare or enclosed by
    quotes.  An enclosed value may run over several lines.  Whatever stands next
    to whatever, the file is cut into these statements again, except that blank
    lines may go to the statement below.

    * `Source`: the statements that a file is put together from.
    * `nonblanks_group_append`: one of them is cut off the lines below it.
    * `nonblanks_ofText_joinLines`: so are all, one after the other. -/

namespace EnvFile

/-- All characters of the text are of a class. -/
def Text.Made (p : Char → Bool) (t : Text) : Prop :=
  ∀ c ∈ t, p c = true

instance (p : Char → Bool) (t : Text) : Decidable (Text.Made p t) :=
  decidable_of_iff (t.all p = true) List.all_eq_true

/-- The texts that are not blank, trimmed. -/
def Text.nonblanks (ts : List Text) : List Text :=
  (ts.map trim).filter fun t => !t.isEmpty

theorem Text.nonblanks_append (ts us : List Text) :
    nonblanks (ts ++ us) = nonblanks ts ++ nonblanks us := by
  simp [nonblanks]

theorem Text.nonblanks_cons (t : Text) (ts : List Text) :
    nonblanks (t :: ts) = nonblanks [t] ++ nonblanks ts :=
  nonblanks_append [t] ts

namespace Segment

variable {t : Text}

/-! ## Statements -/

/-- What stands in front of a value: a key and a separator, perhaps with the word
    `export` before the key, and perhaps indented. -/
structure Heading where
  indent : Text := []
  /-- The blanks behind the word `export`, if the word is there. -/
  exported : Option Text := none
  key : Text
  separator : Text := "=".toList
  indented : Text.Made isGap indent := by decide
  apart : ∀ gap ∈ exported, gap ≠ [] ∧ Text.Made isGap gap := by decide
  isKeyChar : Text.Made Assignment.isKeyChar key := by decide
  isSeparator : separator = "=".toList ∨ separator = ": ".toList := by decide

namespace Heading

def word (h : Heading) : Text :=
  h.exported.elim [] fun gap => "export".toList ++ gap

def text (h : Heading) : Text :=
  h.indent ++ (h.word ++ (h.key ++ h.separator))

end Heading

/-- A statement as a file holds it. -/
inductive Source : Text → Prop
  | blank {gap : Text} : Text.Made isGap gap → Source gap
  | comment {gap text : Text} : Text.Made isGap gap → '\n' ∉ text → Source (gap ++ '#' :: text)
  | unseparated {line : Text} : '\n' ∉ line → '=' ∉ line → ':' ∉ line → Source line
  | bare {h : Heading} {value : Text} : '\n' ∉ value →
      (value.dropWhile isGap).head?.any Value.isQuote = false → Source (h.text ++ value)
  | quoted {h : Heading} {gap body tail : Text} {q : Char} : Text.Made isGap gap →
      Value.isQuote q = true → Encloses q body → '\n' ∉ tail →
      Source (h.text ++ (gap ++ q :: (body ++ q :: tail)))

theorem newline_not_mem_of_isGap (h : Text.Made isGap t) : '\n' ∉ t :=
  fun hn => absurd (h _ hn) (by decide)

/-! ## What a statement opens -/

namespace Heading

variable (h : Heading)

/-- The word `export` or nothing. -/
theorem word_eq : h.word = [] ∨
    ∃ gap, h.word = "export".toList ++ gap ∧ Text.Made isGap gap := by
  cases e : h.exported with
  | none => exact .inl (by rw [word, e]; rfl)
  | some gap => exact .inr ⟨gap, by rw [word, e]; rfl, (h.apart gap e).2⟩

theorem newline_not_mem : '\n' ∉ h.text := by
  have indent_line := newline_not_mem_of_isGap h.indented
  have word_line : '\n' ∉ h.word := by
    rcases h.word_eq with none | ⟨gap, some, hgap⟩
    · simp [none]
    · simp [some, newline_not_mem_of_isGap hgap]
  have key_line : '\n' ∉ h.key := fun hn => absurd (h.isKeyChar _ hn) (by decide)
  rcases h.isSeparator with hs | hs <;> simp [text, hs, indent_line, word_line, key_line]

/-- Neither word nor key holds a separator. -/
theorem plain : ∀ c ∈ h.word ++ h.key, c ≠ '=' ∧ c ≠ ':' := by
  have letters : Text.Made (fun c => c != '=' && c != ':') "export".toList := by decide
  intro c hc
  rcases List.mem_append.1 hc with hc | hc
  · rcases h.word_eq with none | ⟨gap, some, hgap⟩
    · rw [none] at hc
      cases hc
    · rw [some] at hc
      rcases List.mem_append.1 hc with hc | hc
      · simpa using letters c hc
      · exact ⟨ne_of_class (hgap c hc) (by decide), ne_of_class (hgap c hc) (by decide)⟩
  · exact ⟨ne_of_class (h.isKeyChar c hc) (by decide), ne_of_class (h.isKeyChar c hc) (by decide)⟩

theorem begins (c : Char) (hc : (h.word ++ h.key).head? = some c) :
    isAsciiBlank c = false ∧ c ≠ '#' := by
  rcases h.word_eq with none | ⟨gap, some, -⟩
  · rw [none] at hc
    have key_char := h.isKeyChar c (List.mem_of_mem_head? hc)
    exact ⟨isAsciiBlank_eq_false (Assignment.isBlank_of_isKeyChar key_char),
      ne_of_class key_char (by decide)⟩
  · obtain rfl : 'e' = c := by simpa [some] using hc
    decide

/-- What a line opens hangs on what stands behind its heading. -/
theorem opening? (w : Text) : Segment.opening? (h.text ++ w) = opened? w := by
  have blank : ∀ c ∈ h.indent, isAsciiBlank c = true :=
    fun c hc => isAsciiBlank_of_isGap (h.indented c hc)
  rcases h.isSeparator with hs | hs
  · have line : h.text ++ w = h.indent ++ (h.word ++ h.key ++ '=' :: w) := by simp [text, hs]
    rw [line, opening?_separator blank h.begins h.plain (.inl rfl)]
  · have line : h.text ++ w = h.indent ++ (h.word ++ h.key ++ ':' :: ' ' :: w) := by
      simp [text, hs]
    rw [line, opening?_separator blank h.begins h.plain (.inr rfl)]
    -- the blank behind the colon does not count
    rfl

end Heading

/-- A line without a separator opens nothing. -/
theorem opening?_unseparated (equals : '=' ∉ t) (colon : ':' ∉ t) : opening? t = none := by
  refine Option.eq_none_iff_forall_ne_some.2 fun p h => ?_
  obtain ⟨-, -, v, s, gap, rfl, -, separator, -⟩ := opening?_eq_some_iff.1 h
  rcases separator with rfl | rfl
  · simp at equals
  · simp at colon

/-- **A statement is one line that opens no quote, or its value is enclosed.** -/
theorem Source.shape (h : Source t) :
    ('\n' ∉ t ∧ opening? t = none) ∨
    ∃ front q body tail, t = front ++ q :: (body ++ q :: tail) ∧ '\n' ∉ front ∧ '\n' ∉ tail ∧
      Value.isQuote q = true ∧ Encloses q body ∧
      ∀ u, opening? (front ++ q :: u) = some (q, u) := by
  cases h with
  | blank gap =>
    left
    have nothing : t.dropWhile isAsciiBlank = [] :=
      List.dropWhile_eq_nil_iff.2 fun c hc => isAsciiBlank_of_isGap (gap c hc)
    exact ⟨newline_not_mem_of_isGap gap, by rw [Segment.opening?, nothing]⟩
  | @comment gap text hgap line =>
    left
    refine ⟨by simp [newline_not_mem_of_isGap hgap, line], ?_⟩
    have blank : ∀ c ∈ gap, isAsciiBlank c = true :=
      fun c hc => isAsciiBlank_of_isGap (hgap c hc)
    rw [Segment.opening?, (Text.span_append_cons blank (by decide) text).2]
    exact if_pos rfl
  | unseparated line equals colon =>
    left
    exact ⟨line, opening?_unseparated equals colon⟩
  | @bare h value line plain =>
    left
    refine ⟨by simp [h.newline_not_mem, line], ?_⟩
    rw [h.opening?, opened?]
    split
    · rfl
    · rename_i c rest cut
      rw [cut] at plain
      have unquoted : Value.isQuote c = false := plain
      rw [if_neg (by simp [unquoted])]
  | @quoted h gap body tail q hgap quote encloses line =>
    right
    refine ⟨h.text ++ gap, q, body, tail, by simp, ?_, line, quote, encloses, ?_⟩
    · simp [h.newline_not_mem, newline_not_mem_of_isGap hgap]
    · intro u
      have stop : isGap q = false := isGap_eq_false (Value.isBlank_of_isQuote quote)
      rw [List.append_assoc, h.opening?, opened?, (Text.span_append_cons hgap stop u).2]
      exact if_pos quote

/-- Only the empty statement has an empty last line. -/
theorem Source.eq_nil_of_getLast? (h : Source t) (last : t.lines.getLast? = some []) : t = [] := by
  rcases h.shape with ⟨line, -⟩ | ⟨front, q, body, tail, rfl, -, tail_line, quote, -, -⟩
  · rw [Text.lines_of_not_mem line] at last
    simpa using last
  · -- the last line ends in the quote or in what stands behind it
    obtain ⟨u, c, ends⟩ := (List.eq_nil_or_concat' (q :: tail)).resolve_left (List.cons_ne_nil _ _)
    have hc : c ≠ '\n' := by
      intro feed
      have : '\n' ∈ q :: tail := by rw [ends, feed]; simp
      rcases List.mem_cons.1 this with h | h
      · exact newline_ne_of_isQuote quote h.symm
      · exact tail_line h
    have text : front ++ q :: (body ++ q :: tail) = front ++ q :: body ++ u ++ [c] := by simp [ends]
    exact absurd (text ▸ last) (Text.getLast?_lines_concat hc _)

/-! ## Cutting -/

section Cutting

open Text (nonblanks nonblanks_cons nonblanks_append)

theorem nonblanks_blank {l : Text} (blank : l.all isAsciiBlank = true) : nonblanks [l] = [] := by
  have nothing : l.trim = [] :=
    Text.strip_eq_nil_of_all fun c hc => isBlank_of_isAsciiBlank (List.all_eq_true.1 blank c hc)
  simp [nonblanks, nothing]

/-- A blank line goes to the segment below or is one of its own; in either case
    it does not show. -/
theorem nonblanks_group_blank {l : Text} (blank : l.all isAsciiBlank = true) (ls : List Text) :
    nonblanks ((group (l :: ls)).map Text.joinLines) =
      nonblanks ((group ls).map Text.joinLines) := by
  have further : further? (l :: ls) = (further? ls).map (· + 1) := by rw [further?, if_pos blank]
  -- does the segment below have further lines?  Only then it takes the blank line
  cases h : further? ls with
  | none =>
    rw [group, further, h]
    show nonblanks (Text.joinLines [l] :: (group ls).map Text.joinLines) = _
    rw [nonblanks_cons, Text.joinLines_singleton, nonblanks_blank blank, List.nil_append]
  | some n =>
    cases ls with
    | nil => cases h
    | cons m ms =>
      have above (g : List Text) :
          nonblanks [Text.joinLines (l :: m :: g)] = nonblanks [Text.joinLines (m :: g)] := by
        have front : ∀ c ∈ l ++ ['\n'], isBlank c = true := by
          intro c hc
          rcases List.mem_append.1 hc with hc | hc
          · exact isBlank_of_isAsciiBlank (List.all_eq_true.1 blank c hc)
          · rw [List.mem_singleton.1 hc]
            decide
        have trim : (Text.joinLines (l :: m :: g)).trim = (Text.joinLines (m :: g)).trim := by
          rw [Text.joinLines_cons_cons, List.append_cons]
          exact Text.strip_append_left front _
        rw [nonblanks, List.map_singleton, trim]
        rfl
      rw [group, further, h, group, h]
      show nonblanks (Text.joinLines (l :: m :: ms.take n) :: _) =
        nonblanks (Text.joinLines (m :: ms.take n) :: _)
      rw [nonblanks_cons, above, ← nonblanks_cons]
      rfl

/-- **A statement is cut off whatever stands below it.** -/
theorem nonblanks_group_append (h : Source t) (ls : List Text) :
    nonblanks ((group (t.lines ++ ls)).map Text.joinLines) =
      nonblanks [t] ++ nonblanks ((group ls).map Text.joinLines) := by
  rcases h.shape with ⟨line, opens⟩ |
    ⟨front, q, body, tail, rfl, front_line, tail_line, quote, enclosed, opens⟩
  · rw [Text.lines_of_not_mem line, List.singleton_append]
    -- a blank line opens nothing either, but it need not stand alone
    cases blank : t.all isAsciiBlank with
    | true => rw [nonblanks_group_blank blank, nonblanks_blank blank, List.nil_append]
    | false =>
      have further : further? (t :: ls) = none := by
        rw [further?, if_neg (by simp [blank]), opens]
      rw [group, further]
      show nonblanks (Text.joinLines [t] :: (group ls).map Text.joinLines) = _
      rw [Text.joinLines_singleton, nonblanks_cons]
  · rw [group_enclosed quote opens front_line tail_line enclosed ls, List.map_cons,
      Text.joinLines_lines, nonblanks_cons]

/-- So are all statements, one after the other. -/
theorem nonblanks_group_flatMap {ts : List Text} (h : ∀ t ∈ ts, Source t) :
    nonblanks ((group (ts.flatMap Text.lines)).map Text.joinLines) = nonblanks ts := by
  induction ts with
  | nil => rw [List.flatMap_nil, group, List.map_nil]
  | cons t ts ih =>
    have rest := ih fun u hu => h u (List.mem_cons_of_mem t hu)
    rw [List.flatMap_cons, nonblanks_group_append (h t List.mem_cons_self), rest, ← nonblanks_cons]

/-- **A file is cut into the statements it was put together from.**  But for
    blanks around them and for blank ones the segments are the statements, in
    order. -/
theorem nonblanks_ofText_joinLines {ts : List Text} (h : ∀ t ∈ ts, Source t) :
    nonblanks ((ofText (Text.joinLines ts)).map Segment.text) = nonblanks ts := by
  rw [ofText, map_text_number]
  by_cases empty : ts = []
  · subst empty
    rw [Text.joinLines_nil, show fileLines [] = [] by decide, group, List.map_nil]
  · rw [fileLines, Text.lines_joinLines_texts empty]
    split
    · -- the file ends in a line feed, so the last statement is empty
      rename_i last
      obtain ⟨us, u, rfl⟩ := (List.eq_nil_or_concat' ts).resolve_left empty
      have last_lines : u.lines.getLast? = some [] := by
        rw [List.flatMap_append, List.flatMap_singleton, List.getLast?_append,
          List.getLast?_eq_some_getLast (Text.lines_ne_nil u), Option.some_or] at last
        rw [List.getLast?_eq_some_getLast (Text.lines_ne_nil u), last]
      have hu := (h u (by simp)).eq_nil_of_getLast? last_lines
      have front := nonblanks_group_flatMap fun t ht => h t (List.mem_append_left [u] ht)
      subst hu
      rw [List.flatMap_append, List.flatMap_singleton, show Text.lines [] = [[]] by decide,
        List.dropLast_concat, front, nonblanks_append, nonblanks_blank rfl, List.append_nil]
    · exact nonblanks_group_flatMap h

/-- A blank line above a value of several lines, an empty value above a line
    that begins with a quote, comments and bare values with quotes in them. -/
theorem nonblanks_ofText_neighbours :
    ∃ ts : List Text, (∀ t ∈ ts, Source t) ∧
      ts = ["", "# don't: \"x", "\t", "export B='x\n\n# y=\"\n' # z'", "A=", "'C'",
        "d: \"a \\\"\nC='\" t", "E=x\"", ""].map String.toList ∧
      nonblanks ((ofText (Text.joinLines ts)).map Segment.text) =
        ["# don't: \"x", "export B='x\n\n# y=\"\n' # z'", "A=", "'C'",
          "d: \"a \\\"\nC='\" t", "E=x\""].map String.toList := by
  have empty : Source "".toList := .blank (by decide)
  have comment : Source "# don't: \"x".toList :=
    @Source.comment [] " don't: \"x".toList (by decide) (by decide)
  have gap : Source "\t".toList := .blank (by decide)
  have several : Source "export B='x\n\n# y=\"\n' # z'".toList :=
    @Source.quoted { exported := some [' '], key := "B".toList } [] "x\n\n# y=\"\n".toList
      " # z'".toList '\'' (by decide) (by decide) (by decide) (by decide)
  have no_value : Source "A=".toList :=
    @Source.bare { key := "A".toList } [] (by decide) (by decide)
  have quote : Source "'C'".toList := .unseparated (by decide) (by decide) (by decide)
  have escaped : Source "d: \"a \\\"\nC='\" t".toList :=
    @Source.quoted { key := "d".toList, separator := ": ".toList } [] "a \\\"\nC='".toList
      " t".toList '"' (by decide) (by decide) (by decide) (by decide)
  have bare : Source "E=x\"".toList :=
    @Source.bare { key := "E".toList } "x\"".toList (by decide) (by decide)
  have all : ∀ t ∈ ["", "# don't: \"x", "\t", "export B='x\n\n# y=\"\n' # z'", "A=", "'C'",
      "d: \"a \\\"\nC='\" t", "E=x\"", ""].map String.toList, Source t := by
    simp only [List.map_cons, List.forall_mem_cons]
    exact ⟨empty, comment, gap, several, no_value, quote, escaped, bare, empty,
      fun t ht => nomatch ht⟩
  exact ⟨_, all, rfl, (nonblanks_ofText_joinLines all).trans (by decide)⟩

end Cutting

end Segment

end EnvFile
