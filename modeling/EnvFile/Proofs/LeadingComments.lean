import EnvFile.Proofs.Texts

/-! # Comment lines above a statement

    A statement is read from the top: blanks in front of it are dropped, a
    comment line is taken off and what stands below is read by itself
    (`read?_eq`).  So blanks around a text do not matter (`read?_trim`), and
    comment lines in front of it change nothing but the comment of what it
    holds.

    * `belowAll_eq`: what comment lines make of a statement.
    * `read?_annotated`: what they make of any text. -/

namespace EnvFile.Statement

/-! ## Reading a line -/

/-- What a line means, from its trimmed text. -/
theorem read?_line {t : Text} (h : '\n' ∉ t) :
    read? t =
      match t.trim with
      | [] => some blank
      | '#' :: _ => some (comment (stripMarkers t.trim))
      | u => ofBody? u := by
  unfold read?
  rw [Text.lines_of_not_mem h, stripMarkers_trim]
  unfold ofLines?
  rw [Text.joinLines_singleton]
  cases t.trim with
  | nil => rfl
  | cons c u =>
    by_cases hc : c = '#'
    · subst hc
      rfl
    · simp [hc]

/-- A text that begins with neither a blank nor a comment marker is read as a
    statement without comment lines. -/
theorem read?_body {c : Char} {t : Text} (hc : isBlank c = false) (h : c ≠ '#') :
    read? (c :: t) = ofBody? (Text.trim (c :: t)) := by
  have hn : c ≠ '\n' := by
    rintro rfl
    exact absurd hc (by decide)
  obtain ⟨l, hl⟩ := Text.exists_lines_cons hn t
  have trim : Text.trim (c :: l) = c :: Text.trimRight isBlank l := Text.strip_cons hc l
  unfold read?
  rw [hl]
  unfold ofLines?
  rw [trim]
  split
  · rename_i e
    cases e
  · rename_i u e
    exact absurd (List.cons.inj e).1 h
  · rw [← hl, Text.joinLines_lines]

/-- Blanks around a line do not matter. -/
theorem read?_congr {t u : Text} (ht : '\n' ∉ t) (hu : '\n' ∉ u) (h : t.trim = u.trim) :
    read? t = read? u := by
  rw [read?_line ht, read?_line hu, h]

/-! ## Reading below comment lines -/

/-- A comment line, as it waits for the row below. -/
def IsNote (l : Text) : Prop :=
  '\n' ∉ l ∧ ∃ t, l.trim = '#' :: t

/-- One comment line more waits, as it is read: trimmed. -/
theorem isNote_concat {notes : List Text} (hnotes : ∀ l ∈ notes, IsNote l) {t : Text}
    (mark : t.trim.head? = some '#') (whole : '\n' ∉ t.trim) :
    ∀ l ∈ notes ++ [t.trim], IsNote l := by
  obtain ⟨u, hu⟩ := List.head?_eq_some_iff.1 mark
  have note : IsNote t.trim := ⟨whole, u, (Text.trim_trim t).trans hu⟩
  exact List.forall_mem_append.2 ⟨hnotes, List.forall_mem_singleton.2 note⟩

theorem isNote_cons {t : Text} (h : '\n' ∉ t) : IsNote ('#' :: t) :=
  ⟨by simpa using h, _, Text.strip_cons (by decide) t⟩

/-- Below a comment line a text is read by itself. -/
theorem read?_note {l : Text} (h : IsNote l) (t : Text) :
    read? (l ++ '\n' :: t) = (read? t).map (below (stripMarkers l)) := by
  obtain ⟨whole, u, hu⟩ := h
  unfold read?
  rw [Text.lines_append, Text.lines_of_not_mem whole, List.singleton_append, ofLines?, hu]
  rfl

/-- A statement below comment lines. -/
def belowAll (notes : List Text) (st : Statement) : Statement :=
  notes.foldr (fun l => below (stripMarkers l)) st

/-- **Comment lines change nothing about how the text below them is read.**
    It is malformed or not, with them as without them. -/
theorem read?_notes {notes : List Text} (hnotes : ∀ l ∈ notes, IsNote l) (t : Text) :
    read? (Text.joinLines (notes ++ [t])) = (read? t).map (belowAll notes) := by
  induction notes with
  | nil =>
    rw [List.nil_append, Text.joinLines_singleton]
    exact Option.map_id'.symm
  | cons l notes ih =>
    obtain ⟨m, ls, more⟩ := List.exists_cons_of_ne_nil (List.concat_ne_nil t notes)
    have rest := ih fun m hm => hnotes m (List.mem_cons_of_mem l hm)
    rw [List.cons_append, more, Text.joinLines_cons_cons, ← more,
      read?_note (hnotes l List.mem_cons_self), rest, Option.map_map]
    rfl

/-! ## Blanks around a statement -/

theorem read?_cons_blank {b : Char} (hb : isBlank b = true) (t : Text) :
    read? (b :: t) = read? t := by
  have trim (u : Text) : Text.trim (b :: u) = u.trim :=
    @Text.strip_append_left isBlank [b] (by simpa using hb) u
  unfold read?
  by_cases hn : b = '\n'
  · rw [hn, Text.lines_newline]
    rfl
  · obtain ⟨l, ls, first⟩ := List.exists_cons_of_ne_nil (Text.lines_ne_nil t)
    have markers : stripMarkers (b :: l) = stripMarkers l := by
      rw [← stripMarkers_trim, trim, stripMarkers_trim]
    have joined : Text.joinLines ((b :: l) :: ls) = b :: Text.joinLines (l :: ls) :=
      (Text.append_joinLines_cons [b] l ls).symm
    rw [Text.lines_cons hn, first, List.modifyHead_cons]
    unfold ofLines?
    rw [trim, markers, joined, trim]

theorem read?_note_concat_blank {l : Text} (h : IsNote l) {b : Char} (hb : isBlank b = true) :
    read? (l ++ [b]) = read? l := by
  obtain ⟨whole, u, hu⟩ := h
  have alone : read? l = some (comment (stripMarkers l)) := by
    rw [read?_line whole, stripMarkers_trim, hu]
    rfl
  by_cases hn : b = '\n'
  · rw [hn, read?_note ⟨whole, u, hu⟩, alone]
    rfl
  · have trim : Text.trim (l ++ [b]) = l.trim := Text.strip_append_right (by simpa using hb) l
    exact read?_congr (by simpa using ⟨whole, Ne.symm hn⟩) whole trim

theorem read?_concat_blank {b : Char} (hb : isBlank b = true) (t : Text) :
    read? (t ++ [b]) = read? t := by
  -- below a blank and below a comment line the rest of the text is read
  induction size : t.length using Nat.strong_induction_on generalizing t with
  | _ n ih =>
    cases t with
    | nil => exact read?_cons_blank hb []
    | cons c t =>
      by_cases hc : isBlank c = true
      · rw [List.cons_append, read?_cons_blank hc, read?_cons_blank hc]
        exact ih t.length (by simp [← size]) t rfl
      by_cases mark : c = '#'
      · subst mark
        by_cases more : '\n' ∈ t
        · obtain ⟨l, rest, rfl, whole⟩ := List.eq_append_cons_of_mem more
          have shorter := ih rest.length (by simp [← size]; omega) rest rfl
          have below := read?_note (isNote_cons whole)
          simp only [List.cons_append, List.append_assoc] at below ⊢
          rw [below, below, shorter]
        · exact read?_note_concat_blank (isNote_cons more) hb
      · have line {u : Text} := @read?_body c u (by simpa using hc) mark
        have trim : Text.trim (c :: t ++ [b]) = Text.trim (c :: t) :=
          Text.strip_append_right (by simpa using hb) (c :: t)
        rw [line, List.cons_append, line, ← List.cons_append, trim]

/-- **Blanks around a text do not matter**, line feeds among them. -/
theorem read?_trim (t : Text) : read? t.trim = read? t := by
  obtain ⟨front, behind, cut, hfront, hbehind⟩ := Text.exists_strip isBlank t
  have dropFront (u : Text) : read? (front ++ u) = read? u := by
    clear cut
    induction front with
    | nil => rfl
    | cons b front ih =>
      rw [List.forall_mem_cons] at hfront
      rw [List.cons_append, read?_cons_blank hfront.1, ih hfront.2]
  have dropBehind (u : Text) : read? (u ++ behind) = read? u := by
    clear cut
    induction behind generalizing u with
    | nil => rw [List.append_nil]
    | cons b behind ih =>
      rw [List.forall_mem_cons] at hbehind
      rw [List.append_cons, ih hbehind.2, read?_concat_blank hbehind.1]
  calc read? t.trim = read? (front ++ t.trim ++ behind) := by rw [dropBehind, dropFront]
    _ = read? t := congrArg read? cut.symm

/-- **How a text is read**, by its trimmed form: a comment line in front is
    taken off and the rest of the text is read by itself. -/
theorem read?_eq (t : Text) :
    read? t =
      match t.trim with
      | [] => some blank
      | '#' :: u =>
        match Text.lines ('#' :: u) with
        | l :: m :: ls => (read? (Text.joinLines (m :: ls))).map (below (stripMarkers l))
        | _ => some (comment (stripMarkers ('#' :: u)))
      | u => ofBody? u := by
  rw [← read?_trim]
  have trim := Text.trim_trim t
  generalize Text.trim t = u at trim
  cases u with
  | nil => rfl
  | cons c u =>
    have solid : isBlank c = false := (Text.strip_eq_self_iff.1 trim).1 c rfl
    by_cases mark : c = '#'
    · subst mark
      by_cases more : '\n' ∈ u
      · obtain ⟨l, rest, rfl, whole⟩ := List.eq_append_cons_of_mem more
        obtain ⟨m, ls, later⟩ := List.exists_cons_of_ne_nil (Text.lines_ne_nil rest)
        have lines : Text.lines ('#' :: (l ++ '\n' :: rest)) = ('#' :: l) :: m :: ls := by
          rw [← List.cons_append, Text.lines_append, Text.lines_of_not_mem (isNote_cons whole).1,
            later, List.singleton_append]
        simp only [lines]
        rw [← later, Text.joinLines_lines]
        exact read?_note (isNote_cons whole) rest
      · simp only [Text.lines_of_not_mem (isNote_cons more).1]
        rw [read?_line (isNote_cons more).1, trim]
        rfl
    · rw [read?_body solid mark, trim]
      simp [mark]

/-! ## What comment lines make of a statement -/

/-- The statement with comment lines above it: their text comes before its own
    comment.  Where there was nothing, they are a comment alone. -/
def annotated (notes : List Text) : Statement → Statement
  | blank => if notes = [] then blank else .comment (commentText notes)
  | .comment text => .comment (Text.joinNonempty (notes.map stripMarkers ++ [text]))
  | bareExport => bareExport
  | assignment a =>
    assignment { a with comment := Text.joinNonempty (notes.map stripMarkers ++ [a.comment]) }

/-- One comment line more is one text more in front. -/
theorem joinNonempty_below (l : Text) (notes : List Text) (text : Text) :
    Text.joinNonempty [stripMarkers l, Text.joinNonempty (notes.map stripMarkers ++ [text])] =
      Text.joinNonempty ((l :: notes).map stripMarkers ++ [text]) := by
  have join := Text.joinNonempty_append [stripMarkers l] (notes.map stripMarkers ++ [text])
  rw [Text.joinNonempty_singleton] at join
  exact join

theorem below_annotated (l : Text) (notes : List Text) (st : Statement) :
    below (stripMarkers l) (annotated notes st) = annotated (l :: notes) st := by
  cases st with
  | blank =>
    cases notes with
    | nil => exact congrArg Statement.comment (Text.joinNonempty_singleton _).symm
    | cons m notes =>
      have join := joinNonempty_below l (m :: notes) []
      rw [Text.joinNonempty_concat_nil, Text.joinNonempty_concat_nil] at join
      exact congrArg Statement.comment join
  | comment text => exact congrArg Statement.comment (joinNonempty_below l notes text)
  | bareExport => rfl
  | assignment a =>
    exact congrArg (fun text => assignment { a with comment := text })
      (joinNonempty_below l notes a.comment)

/-- Comment lines add up: one after the other, they do what they do at once. -/
theorem belowAll_eq (notes : List Text) (st : Statement) :
    belowAll notes st = annotated notes st := by
  induction notes with
  | nil => cases st <;> simp [belowAll, annotated, Text.joinNonempty_singleton]
  | cons l notes ih => rw [← below_annotated, ← ih, belowAll, List.foldr_cons, belowAll]

/-- **Comment lines above a text** are a comment, whatever the text holds.  It
    is malformed or not, with them as without them. -/
theorem read?_annotated {notes : List Text} (hnotes : ∀ l ∈ notes, IsNote l) (t : Text) :
    read? (Text.joinLines (notes ++ [t])) = (read? t).map (annotated notes) := by
  have same : belowAll notes = annotated notes := funext (belowAll_eq notes)
  rw [read?_notes hnotes, same]

/-- A value of two lines below blank lines, nothing, the bare word, and a
    malformed line; one of the comment lines has no text. -/
theorem read?_annotated_samples :
    let above := [" ## # <-Comment-> ", "#", "\t# Sub-comment"].map String.toList
    let read (text : String) := read? (Text.joinLines (above ++ [text.toList]))
    (∀ l ∈ above, IsNote l) ∧
    read "\n\n export KEY = \"a\nb\" # inline" =
      some (.assignment ⟨"KEY".toList, "a\nb".toList, "<-Comment->\nSub-comment\ninline".toList⟩) ∧
    read " \n" = some (.comment "<-Comment->\nSub-comment".toList) ∧
    read "# below\n" = some (.comment "<-Comment->\nSub-comment\nbelow".toList) ∧
    read "export" = some .bareExport ∧
    read "KEY:1" = none := by
  intro above read
  have notes : ∀ l ∈ above, IsNote l := by
    intro l hl
    simp only [above, List.map_cons, List.map_nil, List.mem_cons, List.not_mem_nil, or_false] at hl
    rcases hl with rfl | rfl | rfl <;> exact ⟨by decide, _, by rfl⟩
  refine ⟨notes, ?_, ?_, ?_, ?_, ?_⟩
  · exact (read?_annotated notes _).trans (by decide)
  · exact (read?_annotated notes _).trans (by decide)
  · exact (read?_annotated notes _).trans (by decide)
  · exact (read?_annotated notes _).trans (by decide)
  · exact (read?_annotated notes _).trans (by decide)

/-! ## Statements that are no assignments -/

/-- It can be seen whether a text was read as an assignment. -/
instance : (o : Option Statement) → Decidable (∀ a, o ≠ some (.assignment a))
  | some (.assignment a) => .isFalse fun hn => hn a rfl
  | some .blank => .isTrue fun a e => by cases e
  | some (.comment _) => .isTrue fun a e => by cases e
  | some .bareExport => .isTrue fun a e => by cases e
  | none => .isTrue fun a e => by cases e

/-- The statement is no assignment. -/
def Idle (st : Statement) : Prop :=
  ∀ a, st ≠ .assignment a

/-- Below comment lines it is none either. -/
theorem Idle.belowAll {st : Statement} (h : st.Idle) (notes : List Text) :
    (st.belowAll notes).Idle := by
  intro a
  rw [belowAll_eq]
  cases st with
  | assignment b => exact absurd rfl (h b)
  | blank => cases notes <;> simp [annotated]
  | comment text => simp [annotated]
  | bareExport => simp [annotated]

end EnvFile.Statement
