import EnvFile.Proofs.Rereading

/-! # Kinds of segments

    The comment lines that wait are read once more together with the statement
    below them.  Even so, what a segment is can be told from its own text:
    whether it is malformed, brings a row, or waits for one.  Only the comment
    of the row depends on what stands above it.

    * `Segment.kind`: what a segment is.
    * `Reader.act`: what a segment of a kind does to a reader.
    * `Reader.feed_eq`: reading a segment is acting on its kind. -/

namespace EnvFile

/-- The row that an assignment brings below comment lines. -/
def Row.brought (notes : List Text) (a : Assignment) (disabled : Bool) : Row :=
  { key := Key.normalize a.key, value := a.value,
    comment := Text.joinNonempty (notes.map Statement.stripMarkers ++ [a.comment]), disabled }

namespace Segment

/-! ## What a segment is -/

/-- What a segment is, whatever stands above it. -/
inductive Kind where
  /-- Blanks, or a comment line without text. -/
  | blank
  | banner (title : Text)
  /-- A comment line that waits for a row. -/
  | remark
  | row (a : Assignment) (disabled : Bool)
  /-- The word `export` without an assignment. -/
  | idle
  | malformed
deriving DecidableEq

/-- The kind of a trimmed comment line. -/
def commentKind (layout : Layout) (t : Text) : Kind :=
  match layout.banner.title? t with
  | some title => .banner title
  | none =>
    match Statement.read? (t.dropWhile (· == '#')) with
    | some (.assignment a) => .row a true
    | some .blank => .blank
    | _ => if Statement.stripMarkers t = [] then .blank else .remark

/-- The kind of a trimmed statement that is no comment line. -/
def statementKind (t : Text) : Kind :=
  match Statement.read? t with
  | none => .malformed
  | some (.assignment a) => .row a false
  | some _ => .idle

/-- The kind of a segment. -/
def kind (layout : Layout) (text : Text) : Kind :=
  if text.trim = [] then .blank
  else if text.trim.head? = some '#' then commentKind layout text.trim
  else statementKind text.trim

theorem kind_of_mark {text : Text} (h : text.trim.head? = some '#') (layout : Layout) :
    kind layout text = commentKind layout text.trim := by
  have nonempty : text.trim ≠ [] := by
    intro e
    rw [e] at h
    cases h
  unfold kind
  rw [if_neg nonempty, if_pos h]

/-- A segment that is read as an assignment brings its row. -/
theorem kind_of_assignment {key rest : Text} {s : Char} {a : Assignment} (h : Key.Legible key)
    (hs : s = '=' ∨ s = ':') (reads : Statement.read? (key ++ s :: rest) = some (.assignment a))
    (layout : Layout) : kind layout (key ++ s :: rest) = .row a false := by
  obtain ⟨c, t, head, hkey⟩ := Assignment.exists_cons h (s :: Text.trimRight isBlank rest)
  have text : Text.trim (key ++ s :: rest) = c :: t :=
    (Assignment.trim_separated h hs rest).trans head
  have mark : c ≠ '#' := ne_of_class hkey (by decide)
  unfold kind
  rw [if_neg (by simp [text]), if_neg (by simp [text, mark]), statementKind,
    Statement.read?_trim, reads]

end Segment

namespace Reader

/-! ## What a segment does -/

/-- What a segment of a kind does to a reader. -/
def act (s : Reader) (g : Segment) : Segment.Kind → Except Fault Reader
  | .blank => .ok s
  | .banner title => .ok { s with banner := some title }
  | .remark => .ok { s with comments := s.comments ++ [g.text.trim] }
  | .row a disabled => .ok (s.receive (.brought s.comments a disabled))
  | .idle => .ok { s with comments := [] }
  | .malformed => .error (.malformed g.line g.text.trim)

variable {s : Reader}

theorem readComment_eq (layout : Layout) (s : Reader) (g : Segment) :
    .ok (s.readComment layout g.text.trim) =
      s.act g (Segment.commentKind layout g.text.trim) := by
  generalize ht : g.text.trim = t
  unfold readComment Segment.commentKind
  cases layout.banner.title? t with
  | some title => rfl
  | none =>
    have remark : Except.ok (ε := Fault) (if (Statement.stripMarkers t).isEmpty then s
          else { s with comments := s.comments ++ [t] }) =
        s.act g (if Statement.stripMarkers t = [] then .blank else .remark) := by
      by_cases marks : Statement.stripMarkers t = []
      · rw [marks]
        rfl
      · rw [if_neg marks, if_neg (by simpa using marks), ← ht]
        rfl
    cases Statement.read? (t.dropWhile (· == '#')) with
    | none => exact remark
    | some st =>
      cases st with
      | blank => rfl
      | comment text => exact remark
      | bareExport => exact remark
      | assignment a =>
        -- the comment lines above and the comment behind it are joined at once
        have join : Text.joinNonempty [Statement.commentText s.comments, a.comment] =
            Text.joinNonempty (s.comments.map Statement.stripMarkers ++ [a.comment]) := by
          rw [← Text.joinNonempty_append, Text.joinNonempty_singleton]
          rfl
        show Except.ok (s.receive (((Row.ofPair a.key a.value).setComment
          (Text.joinNonempty [Statement.commentText s.comments, a.comment])).setDisabled true)) = _
        rw [join]
        rfl

/-- Comment lines that wait do not change what the statement below them is. -/
theorem readStatement_eq (hnotes : ∀ l ∈ s.comments, Statement.IsNote l) (g : Segment) :
    s.readStatement g.line g.text.trim = s.act g (Segment.statementKind g.text.trim) := by
  unfold readStatement Segment.statementKind
  rw [Statement.read?_notes hnotes]
  cases Statement.read? g.text.trim with
  | none => rfl
  | some st =>
    rw [Option.map_some, Statement.belowAll_eq]
    cases st with
    | blank => cases s.comments <;> rfl
    | comment text => rfl
    | bareExport => rfl
    | assignment a => rfl

/-- **Reading a segment is acting on its kind.** -/
theorem feed_eq (hnotes : ∀ l ∈ s.comments, Statement.IsNote l) (layout : Layout) (g : Segment) :
    s.feed layout g = s.act g (Segment.kind layout g.text) := by
  unfold feed
  split
  · rename_i blank
    unfold Segment.kind
    rw [if_pos blank]
    rfl
  · rename_i t mark
    rw [Segment.kind_of_mark (by rw [mark, List.head?_cons]), ← mark]
    exact readComment_eq layout s g
  · rename_i nonempty unmarked
    have mark : g.text.trim.head? ≠ some '#' := by
      intro h
      obtain ⟨t, ht⟩ := List.head?_eq_some_iff.1 h
      exact unmarked t ht
    unfold Segment.kind
    rw [if_neg nonempty, if_neg mark]
    exact readStatement_eq hnotes g

end Reader

end EnvFile
