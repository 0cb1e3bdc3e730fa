import EnvFile.Proofs.CanonicalKey
import EnvFile.Proofs.LeadingComments
import EnvFile.Proofs.WrittenValue
import EnvFile.Row

/-! # Written statements

    An assignment that `Row.assignmentLine` writes is read as the assignment of
    its key, whatever the value, and whatever comment lines stand above it.

    * `read?_separated`: an assignment whose separator touches the key.
    * `read?_written`: the line of an assignment alone.
    * `read?_below`: the line below comment lines, which become its comment. -/

namespace EnvFile

namespace Assignment

/-! ## The parts of a written assignment -/

/-- The closing quote at the end of a text is the last one. -/
theorem lastClosing?_concat (q : Char) (t : Text) : lastClosing? q (t ++ [q]) = some (t, []) := by
  induction t with
  | nil => simp [lastClosing?, trailer?]
  | cons c t ih =>
    -- a closing quote further behind comes before any in front
    rw [List.cons_append]
    unfold lastClosing?
    rw [ih]

theorem quoted?_quoted {q : Char} (hq : Value.isQuote q = true) (t : Text) :
    quoted? (q :: (t ++ [q])) = some (q :: (t ++ [q]), []) := by
  simp only [quoted?, hq, lastClosing?_concat]
  rfl

/-- A bare value is all of what stands behind the separator. -/
theorem bare?_of_plain {w : Text} (plain : ∀ c ∈ w, Value.isPlain c = true) :
    quoted? w = none ∧ bare? w = some (w, []) := by
  have hbare : ∀ c ∈ w, isBareChar c = true := by
    intro c hc
    have hp := plain c hc
    have hn : c ≠ '#' := ne_of_class hp (by decide)
    have hl : c ≠ '\n' := ne_of_class hp (by decide)
    simp [isBareChar, hn, hl]
  constructor
  · cases w with
    | nil => rfl
    | cons c w =>
      have hq := Value.isQuote_of_isPlain (plain c List.mem_cons_self)
      simp [quoted?, hq]
  · have hdrop : w.dropWhile isBareChar = [] := List.dropWhile_eq_nil_iff.2 hbare
    have htake : w.takeWhile isBareChar = w := by simpa using hbare
    unfold bare?
    rw [hdrop, htake]
    rfl

/-- A value without blanks around it is quoted, or else bare. -/
theorem rawValue?_trimmed {w : Text} (trim : w.trim = w) :
    rawValue? .equals w = (quoted? w).or (bare? w) := by
  have hbody : w.dropWhile isBlank = w := by
    apply Text.dropWhile_of_head?
    exact (Text.strip_eq_self_iff.1 trim).1
  unfold rawValue?
  simp [hbody]

theorem rawValue?_quoted {q : Char} (hq : Value.isQuote q = true) (t : Text) :
    rawValue? .equals (q :: (t ++ [q])) = some (q :: (t ++ [q]), []) := by
  rw [rawValue?_trimmed (Value.trim_quoted hq t), quoted?_quoted hq]
  rfl

theorem rawValue?_written {w : Text} (h : Value.Written w) :
    rawValue? .equals w = some (w, []) := by
  cases h with
  | bare plain =>
    obtain ⟨hq, hb⟩ := bare?_of_plain plain
    rw [rawValue?_trimmed (Value.Written.bare plain).trim, hq, hb]
    rfl
  | quoted t => exact rawValue?_quoted rfl _

theorem separator?_equals (rest : Text) : separator? ('=' :: rest) = some (.equals, rest) := by
  have hdrop : ('=' :: rest).dropWhile isBlank = '=' :: rest := by
    rw [List.dropWhile_cons_of_neg (by decide)]
  unfold separator?
  split
  · rename_i h
    cases h
  · rw [hdrop]
    rfl

theorem isBlank_of_isKeyChar {c : Char} (h : isKeyChar c = true) : isBlank c = false := by
  simp only [isKeyChar, Bool.or_eq_true, beq_iff_eq] at h
  rcases h with (h | rfl) | rfl
  · exact isBlank_of_isAlphanum h
  · decide
  · decide

/-- No keyword stands before a key that the separator touches. -/
theorem dropExport_of_key {key : Text} (hkey : ∀ c ∈ key, isKeyChar c = true) {s : Char}
    (hs : s = '=' ∨ s = ':') (rest : Text) : dropExport (key ++ s :: rest) = key ++ s :: rest := by
  have blank : isBlank s = false := by rcases hs with rfl | rfl <;> decide
  unfold dropExport
  split
  · rename_i b more h
    rw [Text.after?_eq_some_iff] at h
    -- the blank behind the keyword would have to stand in the key
    have hb : isBlank b = false := by
      rcases List.append_eq_append_iff.1 h with ⟨u, hu, hmore⟩ | ⟨u, hu, hmore⟩
      · cases u with
        | nil =>
          obtain ⟨rfl, -⟩ := List.cons.inj hmore
          exact blank
        | cons c u =>
          obtain ⟨rfl, -⟩ := List.cons.inj hmore
          exact isBlank_of_isKeyChar (hkey b (by rw [hu]; simp))
      · cases u with
        | nil =>
          obtain ⟨rfl, -⟩ := List.cons.inj hmore
          exact blank
        | cons c u =>
          obtain ⟨rfl, -⟩ := List.cons.inj hmore
          have : s ∈ "export".toList := by rw [hu]; simp
          rcases hs with rfl | rfl <;> exact absurd this (by decide)
    rw [hb]
    rfl
  · rfl

theorem takeWhile_key {key : Text} (hkey : ∀ c ∈ key, isKeyChar c = true) {s : Char}
    (hs : s = '=' ∨ s = ':') (rest : Text) :
    (key ++ s :: rest).takeWhile isKeyChar = key ∧
      (key ++ s :: rest).dropWhile isKeyChar = s :: rest := by
  have sep : isKeyChar s = false := by rcases hs with rfl | rfl <;> decide
  exact Text.span_append_cons hkey sep rest

/-- What an assignment is whose separator touches the key: it hangs on what
    stands behind the separator. -/
theorem read?_separated {key rest w : Text} {s : Char} {kind : Separator} (h : Key.Legible key)
    (hs : s = '=' ∨ s = ':') (separates : separator? (s :: rest) = some (kind, w)) :
    read? (key ++ s :: rest) =
      (rawValue? kind w).map fun p =>
        { key, value := Value.read p.1.trim, comment := p.2.trim } := by
  have hkey : ∀ c ∈ key, isKeyChar c = true := fun c hc => h.isKeyChar hc
  obtain ⟨htake, hdrop⟩ := takeWhile_key hkey hs rest
  have hne : key.isEmpty = false := by simpa using h.ne_nil
  unfold read?
  simp only [dropExport_of_key hkey hs, htake, hdrop, hne, separates, Option.bind_eq_bind,
    Option.bind_some]
  cases rawValue? kind w <;> rfl

theorem read?_equals {key w raw : Text} (h : Key.Legible key)
    (hw : rawValue? .equals w = some (raw, [])) :
    read? (key ++ '=' :: w) = some { key, value := Value.read raw.trim, comment := [] } := by
  rw [read?_separated h (.inl rfl) (separator?_equals w), hw]
  rfl

theorem read?_written {key : Text} (h : Key.Legible key) (v : Text) :
    read? (key ++ '=' :: Value.write v) =
      some { key, value := Value.read (Value.write v), comment := [] } := by
  have hw := Value.written_write v
  rw [read?_equals h (rawValue?_written hw), hw.trim]

/-- The text of an assignment begins with the key. -/
theorem exists_cons {key : Text} (h : Key.Legible key) (rest : Text) :
    ∃ c t, key ++ rest = c :: t ∧ isKeyChar c = true := by
  obtain ⟨c, k, rfl⟩ := List.exists_cons_of_ne_nil h.ne_nil
  exact ⟨c, _, rfl, h.isKeyChar List.mem_cons_self⟩

/-- Only blanks at the end can stand around an assignment. -/
theorem trim_separated {key : Text} (h : Key.Legible key) {s : Char} (hs : s = '=' ∨ s = ':')
    (rest : Text) : Text.trim (key ++ s :: rest) = key ++ s :: Text.trimRight isBlank rest := by
  have sep : isBlank s = false := by rcases hs with rfl | rfl <;> decide
  obtain ⟨c, k, rfl⟩ := List.exists_cons_of_ne_nil h.ne_nil
  have head : isBlank c = false := isBlank_of_isKeyChar (h.isKeyChar List.mem_cons_self)
  unfold Text.trim
  rw [List.cons_append, Text.strip_cons head, Text.trimRight_append_cons sep, List.cons_append]

theorem trim_equals {key w : Text} (h : Key.Legible key) (hw : w.trim = w) :
    Text.trim (key ++ '=' :: w) = key ++ '=' :: w := by
  rw [trim_separated h (.inl rfl), Text.trimRight_of_strip hw]

end Assignment

/-! ## Lines of assignments -/

namespace Row

theorem assignmentLine_live (key v : Text) :
    assignmentLine key v false = key ++ '=' :: Value.write v := rfl

/-- The line of an assignment has no line ending in it. -/
theorem not_mem_assignmentLine {key : Text} (h : Key.Legible key) (v : Text) {c : Char}
    (hc : c = '\n' ∨ c = '\r') : c ∉ assignmentLine key v false := by
  rw [assignmentLine_live]
  intro hm
  rcases List.mem_append.1 hm with hm | hm
  · have := h.isKeyChar hm
    rcases hc with rfl | rfl <;> exact absurd this (by decide)
  · rcases List.mem_cons.1 hm with rfl | hm
    · exact absurd hc (by decide)
    · exact (Value.written_write v).not_mem hc hm

/-- The line of an assignment begins with the key. -/
theorem exists_assignmentLine {key : Text} (h : Key.Legible key) (v : Text) :
    ∃ c t, assignmentLine key v false = c :: t ∧ Assignment.isKeyChar c = true :=
  Assignment.exists_cons h ('=' :: Value.write v)

theorem trim_assignmentLine {key : Text} (h : Key.Legible key) (v : Text) :
    (assignmentLine key v false).trim = assignmentLine key v false :=
  Assignment.trim_equals h (Value.written_write v).trim

end Row

namespace Statement

theorem of_ofBody? {t : Text} {a : Assignment} (h : ofBody? t = some (.assignment a)) :
    Assignment.read? t = some a := by
  unfold ofBody? at h
  split at h
  · rename_i b hb
    cases h
    exact hb
  · split at h <;> cases h

/-- An assignment whose separator touches the key has no comment lines. -/
theorem read?_separated {key : Text} (h : Key.Legible key) {s : Char} (hs : s = '=' ∨ s = ':')
    (rest : Text) : read? (key ++ s :: rest) = ofBody? (key ++ s :: Text.trimRight isBlank rest) := by
  obtain ⟨c, t, hct, hkey⟩ := Assignment.exists_cons h (s :: rest)
  have mark : c ≠ '#' := ne_of_class hkey (by decide)
  have line := read?_body (Assignment.isBlank_of_isKeyChar hkey) mark (t := t)
  rwa [← hct, Assignment.trim_separated h hs] at line

/-- An assignment is a statement without comment lines. -/
theorem read?_equals {key w : Text} (h : Key.Legible key) (hw : w.trim = w) {a : Assignment}
    (reads : Assignment.read? (key ++ '=' :: w) = some a) :
    read? (key ++ '=' :: w) = some (.assignment a) := by
  rw [read?_separated h (.inl rfl), Text.trimRight_of_strip hw, ofBody?, reads]

/-- **A written assignment is read as what it says.** -/
theorem read?_written {key : Text} (h : Key.Legible key) (v : Text) :
    read? (Row.assignmentLine key v false) =
      some (.assignment { key, value := Value.read (Value.write v), comment := [] }) :=
  read?_equals h (Value.written_write v).trim (Assignment.read?_written h v)

/-- **Below comment lines a written assignment has their text as its
    comment.** -/
theorem read?_below {key : Text} (h : Key.Legible key) (v : Text) {notes : List Text}
    (hnotes : ∀ l ∈ notes, IsNote l) :
    read? (Text.joinLines (notes ++ [Row.assignmentLine key v false])) =
      some (.assignment
        { key, value := Value.read (Value.write v), comment := commentText notes }) := by
  rw [read?_notes hnotes, read?_written h, Option.map_some, belowAll_eq, annotated,
    Text.joinNonempty_concat_nil, commentText]

end Statement

end EnvFile
