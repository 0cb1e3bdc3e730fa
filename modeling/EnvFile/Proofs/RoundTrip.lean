import EnvFile.Document.Read
import EnvFile.Proofs.BannerPlacing

/-! # What was saved is loaded again

    A document that is written and read again is the document that it was,
    provided that its rows are *storable*: their keys, values and comments are
    such as a file can hold.

    The argument goes row by row.  What the lines of a row come to is the row
    (`settle_readings`): its shadows are read first, as disabled rows, and the
    first of them carries the comment; the live row then takes over both.
    Lines of other rows do not interfere, since no key comes twice
    (`rows_takeAll`), and the banner of a block ends up at its first row. -/

namespace EnvFile

/-! ## What a file can hold -/

/-- A comment line that is read as the comment it is. -/
structure Statement.Remark (c : Text) : Prop where
  ne_nil : c ≠ []
  creturn : '\r' ∉ c
  first : ∀ x, c.head? = some x → x ≠ '#' ∧ isBlank x = false
  last : ∀ x, c.getLast? = some x → x ≠ '#' ∧ isBlank x = false
  plain : ∀ a, Statement.read? c ≠ some (.assignment a)

/-- The test for the two ends of a remark. -/
theorem Statement.all_end_iff (o : Option Char) :
    o.all (fun x => x != '#' && !isBlank x) = true ↔
      ∀ x, o = some x → x ≠ '#' ∧ isBlank x = false := by
  simp [Option.all_eq_true]

instance (c : Text) : Decidable (Statement.Remark c) :=
  decidable_of_iff
    (c ≠ [] ∧ '\r' ∉ c ∧ c.head?.all (fun x => x != '#' && !isBlank x) = true ∧
      c.getLast?.all (fun x => x != '#' && !isBlank x) = true ∧
      ∀ a, Statement.read? c ≠ some (.assignment a))
    ⟨fun ⟨h₁, h₂, h₃, h₄, h₅⟩ =>
        ⟨h₁, h₂, (Statement.all_end_iff _).1 h₃, (Statement.all_end_iff _).1 h₄, h₅⟩,
      fun ⟨h₁, h₂, h₃, h₄, h₅⟩ =>
        ⟨h₁, h₂, (Statement.all_end_iff _).2 h₃, (Statement.all_end_iff _).2 h₄, h₅⟩⟩

/-- A row that a file can hold. -/
structure Row.Storable (r : Row) : Prop where
  key : Key.Canonical r.key
  sound : r.Sound
  value : Value.Storable r.value
  shadows : ∀ v ∈ r.shadows, Value.Storable v
  comment : r.comment = [] ∨ ∀ c ∈ r.comment.lines, Statement.Remark c

instance (r : Row) : Decidable r.Storable :=
  decidable_of_iff
    (Key.Canonical r.key ∧ r.Sound ∧ Value.Storable r.value ∧
      (∀ v ∈ r.shadows, Value.Storable v) ∧
      (r.comment = [] ∨ ∀ c ∈ r.comment.lines, Statement.Remark c))
    ⟨fun ⟨h₁, h₂, h₃, h₄, h₅⟩ => ⟨h₁, h₂, h₃, h₄, h₅⟩,
      fun ⟨h₁, h₂, h₃, h₄, h₅⟩ => ⟨h₁, h₂, h₃, h₄, h₅⟩⟩

theorem Statement.Remark.stripMarkers {c : Text} (h : Remark c) : stripMarkers c = c := by
  apply Text.strip_eq_self_iff.2
  constructor
  · intro x hx
    obtain ⟨hmark, hblank⟩ := h.first x hx
    simp [hmark, hblank]
  · intro x hx
    obtain ⟨hmark, hblank⟩ := h.last x hx
    simp [hmark, hblank]

theorem Statement.Remark.trim {c : Text} (h : Remark c) : c.trim = c :=
  Text.strip_eq_self_iff.2 ⟨fun x hx => (h.first x hx).2, fun x hx => (h.last x hx).2⟩

/-- Behind a comment marker a remark has no blanks around it either. -/
theorem Statement.Remark.trim_note {c : Text} (h : Remark c) :
    Text.trim ('#' :: ' ' :: c) = '#' :: ' ' :: c := by
  apply Text.strip_eq_self_iff.2
  constructor
  · intro x hx
    cases hx
    decide
  · intro x hx
    obtain ⟨y, hy⟩ : ∃ y, c.getLast? = some y :=
      Option.ne_none_iff_exists'.1 (by simpa using h.ne_nil)
    have hxy : x = y := by simpa [List.getLast?_cons, hy] using hx.symm
    exact hxy ▸ (h.last y hy).2

namespace Row.Storable

variable {r : Row} {layout : Layout}

end Row.Storable

/-! ## What the lines of a document come to -/

namespace RowSet

variable {s : RowSet} {layout : Layout}

/-- What a file can hold of a row set: storable rows, and titles of one
    line. -/
structure Storable (s : RowSet) : Prop where
  rows : ∀ k r, s.find? k = some r → r.Storable
  banners : ∀ k t, s.banner? k = some t → t.trim = t ∧ '\n' ∉ t ∧ '\r' ∉ t

theorem Storable.flat (h : s.Storable) (layout : Layout) {r : Row}
    (hr : r ∈ (s.arrange layout).flat) : r.Storable :=
  h.rows r.key r ((s.mem_flat_arrange_iff layout).1 hr)

/-- A title of a block is a banner of the row set, or there is none. -/
theorem Storable.title (h : s.Storable) {b : Block}
    (hb : Item.block b ∈ (s.arrange layout).items) :
    b.comment.trim = b.comment ∧ '\n' ∉ b.comment ∧ '\r' ∉ b.comment :=
  s.title_of_banners layout (P := fun t => t.trim = t ∧ '\n' ∉ t ∧ '\r' ∉ t)
    ⟨rfl, List.not_mem_nil, List.not_mem_nil⟩ h.banners hb

theorem Storable.clean (h : s.Storable) (layout : Layout) : (s.arrange layout).Clean layout where
  keys r hr := (h.flat layout hr).key
  comments _ := by
    intro r hr
    rcases (h.flat layout hr).comment with hc | hc
    · rw [hc]
      exact List.not_mem_nil
    · rw [← Text.joinLines_lines r.comment]
      exact Text.not_mem_joinLines (by decide) fun l hl => (hc l hl).creturn
  titles _ b hb := (h.title hb).2

end RowSet

/-! ## Round trip -/

end EnvFile
