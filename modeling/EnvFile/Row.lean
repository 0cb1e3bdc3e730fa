import EnvFile.Key
import EnvFile.Layout
import EnvFile.Value

/-! # Rows

    A row is one variable: its key, its value, the comment above it, whether
    it is disabled (written behind a comment marker), and its shadows, the
    values that other definitions of the same variable gave it.

    A row is *sound* when its shadows are distinct, none is its value, and a
    disabled row has none.  Every operation on rows keeps it so. -/

namespace EnvFile

/-- One variable. -/
structure Row where
  key : Text
  value : Text
  comment : Text := []
  disabled : Bool := false
  /-- Superseded values, oldest first. -/
  shadows : List Text := []
deriving DecidableEq

namespace Row

/-- A live row for a variable, under the key that `key` stands for. -/
def ofPair (key value : Text) : Row :=
  { key := Key.normalize key, value }

/-! ## Changing a row -/

/-- Give the row a value; a shadow that is this value goes. -/
def setValue (r : Row) (value : Text) : Row :=
  { r with value, shadows := r.shadows.filter (· != value) }

/-- Give the row a comment. -/
def setComment (r : Row) (comment : Text) : Row :=
  { r with comment }

/-- Disable or enable the row; disabling forgets the shadows. -/
def setDisabled (r : Row) (disabled : Bool) : Row :=
  { r with disabled, shadows := if disabled then [] else r.shadows }

/-- Is this one of the superseded values? -/
def hasShadow (r : Row) (value : Text) : Bool :=
  r.shadows.contains value

/-- Remember a superseded value, unless it is the row's own, is remembered
    already, or the row is disabled. -/
def addShadow (r : Row) (value : Text) : Row :=
  if r.disabled || value == r.value || r.hasShadow value then r
  else { r with shadows := r.shadows ++ [value] }

/-- Remember superseded values in order. -/
def addShadows (r : Row) (values : List Text) : Row :=
  values.foldl addShadow r

/-- Give a row without a comment this one. -/
def backfillComment (r : Row) (comment : Text) : Row :=
  if r.comment.isEmpty then { r with comment } else r

/-- Take over the value of `other`, gather its shadows, and fill an empty
    comment from it. -/
def merge (r other : Row) : Row :=
  ((r.setValue other.value).addShadows other.shadows).backfillComment other.comment

/-! ### What a change leaves alone -/

@[simp] theorem addShadow_frame (r : Row) (v : Text) :
    (r.addShadow v).key = r.key ∧ (r.addShadow v).value = r.value ∧
      (r.addShadow v).comment = r.comment ∧ (r.addShadow v).disabled = r.disabled := by
  unfold addShadow
  split <;> exact ⟨rfl, rfl, rfl, rfl⟩

@[simp] theorem addShadows_frame (r : Row) (vs : List Text) :
    (r.addShadows vs).key = r.key ∧ (r.addShadows vs).value = r.value ∧
      (r.addShadows vs).comment = r.comment ∧ (r.addShadows vs).disabled = r.disabled := by
  unfold addShadows
  induction vs generalizing r with
  | nil => exact ⟨rfl, rfl, rfl, rfl⟩
  | cons v vs ih =>
    have := ih (r.addShadow v)
    simpa using this

@[simp] theorem backfillComment_frame (r : Row) (c : Text) :
    (r.backfillComment c).key = r.key ∧ (r.backfillComment c).value = r.value ∧
      (r.backfillComment c).disabled = r.disabled ∧
      (r.backfillComment c).shadows = r.shadows := by
  unfold backfillComment
  split <;> exact ⟨rfl, rfl, rfl, rfl⟩

/-- A comment is filled, never emptied. -/
theorem comment_backfillComment_ne_nil {r : Row} {c : Text} (h : r.comment ≠ [] ∨ c ≠ []) :
    (r.backfillComment c).comment ≠ [] := by
  unfold backfillComment
  split
  · rename_i hr
    exact h.resolve_left fun hn => hn (List.isEmpty_iff.1 hr)
  · rename_i hr
    exact fun hn => hr (List.isEmpty_iff.2 hn)

/-! ## Soundness -/

/-- The shadows of a sound row are distinct values that are not its own, and a
    disabled row has none. -/
structure Sound (r : Row) : Prop where
  nodup : r.shadows.Nodup
  value_not_mem : r.value ∉ r.shadows
  disabled : r.disabled = true → r.shadows = []

instance (r : Row) : Decidable r.Sound :=
  decidable_of_iff
    (r.shadows.Nodup ∧ r.value ∉ r.shadows ∧ (r.disabled = true → r.shadows = []))
    ⟨fun ⟨h₁, h₂, h₃⟩ => ⟨h₁, h₂, h₃⟩, fun ⟨h₁, h₂, h₃⟩ => ⟨h₁, h₂, h₃⟩⟩

theorem sound_ofPair (key value : Text) : (ofPair key value).Sound :=
  ⟨.nil, List.not_mem_nil, fun _ => rfl⟩

theorem Sound.setValue {r : Row} (h : r.Sound) (value : Text) : (r.setValue value).Sound where
  nodup := h.nodup.filter _
  value_not_mem := by simp [Row.setValue]
  disabled hd := by
    have := h.disabled hd
    simp [Row.setValue, this]

theorem Sound.setComment {r : Row} (h : r.Sound) (comment : Text) :
    (r.setComment comment).Sound :=
  ⟨h.nodup, h.value_not_mem, h.disabled⟩

theorem Sound.setDisabled {r : Row} (h : r.Sound) (disabled : Bool) :
    (r.setDisabled disabled).Sound := by
  cases disabled
  · exact ⟨h.nodup, h.value_not_mem, fun h => nomatch h⟩
  · exact ⟨.nil, List.not_mem_nil, fun _ => rfl⟩

theorem Sound.addShadow {r : Row} (h : r.Sound) (value : Text) : (r.addShadow value).Sound := by
  rw [Row.addShadow]
  split
  · exact h
  · rename_i hc
    simp only [hasShadow, Bool.or_eq_true, beq_iff_eq, List.contains_iff_mem, not_or,
      Bool.not_eq_true] at hc
    obtain ⟨⟨hd, hv⟩, hs⟩ := hc
    exact {
      nodup := List.nodup_append.2
        ⟨h.nodup, by simp, fun a ha b hb e => hs (List.mem_singleton.1 hb ▸ e ▸ ha)⟩
      value_not_mem := by
        simpa using ⟨h.value_not_mem, fun e => hv e.symm⟩
      disabled := fun hd' => absurd (hd.symm.trans hd') Bool.false_ne_true }

theorem Sound.addShadows {r : Row} (h : r.Sound) (values : List Text) :
    (r.addShadows values).Sound := by
  induction values generalizing r with
  | nil => exact h
  | cons v values ih => exact ih (h.addShadow v)

theorem Sound.backfillComment {r : Row} (h : r.Sound) (comment : Text) :
    (r.backfillComment comment).Sound := by
  rw [Row.backfillComment]
  split
  · exact ⟨h.nodup, h.value_not_mem, h.disabled⟩
  · exact h

theorem Sound.merge {r : Row} (h : r.Sound) (other : Row) : (r.merge other).Sound :=
  ((h.setValue _).addShadows _).backfillComment _

/-! ## The written form -/

/-- The key of a row of a group; outside any group, its own key. -/
def fullKey (r : Row) (group : Text) : Text :=
  Key.join group r.key

/-- The line that gives `key` a value, behind a comment marker if disabled. -/
def assignmentLine (key value : Text) (disabled : Bool) : Text :=
  (if disabled then "# ".toList else []) ++ key ++ '=' :: Value.write value

/-- The comment above a row, line by line. -/
def commentLines (r : Row) (layout : Layout) : List Text :=
  if r.comment.isEmpty || layout.omitComments then []
  else r.comment.lines.map ("# ".toList ++ ·)

/-- The shadows of a live row, as disabled assignments. -/
def shadowLines (r : Row) (group : Text) (layout : Layout) : List Text :=
  if r.disabled || layout.omitShadows then []
  else r.shadows.map fun v => assignmentLine (r.fullKey group) v true

/-- The lines of a row of a group: comment, shadows, assignment. -/
def lines (r : Row) (group : Text) (layout : Layout) : List Text :=
  if r.disabled && layout.omitDisabled then []
  else
    r.commentLines layout ++ r.shadowLines group layout ++
      [assignmentLine (r.fullKey group) r.value r.disabled]

/-- The text of a row of a group. -/
def render (r : Row) (group : Text) (layout : Layout) : Text :=
  Text.joinLines (r.lines group layout)

end Row

end EnvFile
