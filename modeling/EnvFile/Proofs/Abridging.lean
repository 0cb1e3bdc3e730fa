import EnvFile.Document.Render
import EnvFile.Proofs.Families
import Mathlib.Algebra.GroupWithZero.Nat

/-! # What a layout leaves out

    A layout may leave out comments, disabled rows and shadows.  Writing a
    document in it is writing the document without these things in full, with
    one exception: a block whose rows are all disabled keeps its banner, though
    no row of it is written.

    * `Row.lines_abridged`, `Block.lines_abridged`: a row and a block.
    * `Document.render_eq_abridged_iff`: a document. -/

namespace EnvFile

/-! ## Abridged documents -/

namespace Layout

/-- The layout with nothing left out. -/
def complete (l : Layout) : Layout :=
  { l with omitComments := false, omitDisabled := false, omitShadows := false }

/-- Does the layout keep the row? -/
def keeps (l : Layout) (r : Row) : Bool :=
  !(l.omitDisabled && r.disabled)

/-- What the layout keeps of a comment. -/
def comment (l : Layout) (t : Text) : Text :=
  if l.omitComments then [] else t

end Layout

/-- What a layout keeps of a row that it keeps. -/
def Row.abridged (l : Layout) (r : Row) : Row :=
  { r with comment := l.comment r.comment, shadows := if l.omitShadows then [] else r.shadows }

/-- What a layout keeps of a block. -/
def Block.abridged (l : Layout) (b : Block) : Block :=
  { b with comment := l.comment b.comment, rows := (b.rows.filter l.keeps).map (Row.abridged l) }

/-- What a layout keeps of an item, if anything. -/
def Item.abridged? (l : Layout) : Item → Option Item
  | .row r => if l.keeps r then some (.row (r.abridged l)) else none
  | .block b => some (.block (b.abridged l))

/-- What a layout keeps of a document. -/
def Document.abridged (l : Layout) (d : Document) : Document :=
  { items := d.items.filterMap (Item.abridged? l) }

variable {l : Layout}

/-! ## Rows -/

namespace Row

theorem lines_of_not_keeps {r : Row} (h : l.keeps r = false) (group : Text) :
    r.lines group l = [] := by
  have out : (r.disabled && l.omitDisabled) = true := by
    simpa [Layout.keeps, and_comm] using h
  exact if_pos out

/-- The lines of a row are those of what the layout keeps of it, in full. -/
theorem lines_abridged {r : Row} (h : l.keeps r = true) (group : Text) :
    (r.abridged l).lines group l.complete = r.lines group l := by
  have written : (r.disabled && l.omitDisabled) = false := by
    cases hd : r.disabled <;> simp_all [Layout.keeps]
  have comment : (r.abridged l).commentLines l.complete = r.commentLines l := by
    unfold commentLines abridged Layout.comment Layout.complete
    cases l.omitComments <;> simp
  have shadows : (r.abridged l).shadowLines group l.complete = r.shadowLines group l := by
    unfold shadowLines abridged Layout.complete
    cases l.omitShadows <;> simp [fullKey]
  have full : ((r.abridged l).disabled && l.complete.omitDisabled) = false := Bool.and_false _
  unfold lines
  rw [written, full, comment, shadows]
  rfl

/-- So are those of several rows. -/
theorem flatMap_lines_abridged (l : Layout) (group : Text) (rows : List Row) :
    ((rows.filter l.keeps).map (abridged l)).flatMap (·.lines group l.complete) =
      rows.flatMap (·.lines group l) := by
  induction rows with
  | nil => rfl
  | cons r rows ih =>
    -- a row that is left out has no lines, so it makes no difference that it is filtered
    rw [List.flatMap_cons, ← ih]
    cases h : l.keeps r with
    | true =>
      rw [List.filter_cons_of_pos h, List.map_cons, List.flatMap_cons, lines_abridged h]
    | false =>
      rw [List.filter_cons_of_neg (by simp [h]), lines_of_not_keeps h, List.nil_append]

end Row

/-! ## Blocks -/

namespace Block

/-- In the layout the banner of the block stands above none of its rows. -/
structure Stranded (l : Layout) (b : Block) : Prop where
  title : b.comment ≠ []
  written : l.omitComments = false
  rows : b.rows ≠ []
  disabled : ∀ r ∈ b.rows, r.disabled = true
  left_out : l.omitDisabled = true

theorem filter_keeps_eq_nil_iff {rows : List Row} (some : rows ≠ []) :
    rows.filter l.keeps = [] ↔ l.omitDisabled = true ∧ ∀ r ∈ rows, r.disabled = true := by
  simp only [List.filter_eq_nil_iff, Layout.keeps, Bool.not_eq_true', Bool.not_eq_false,
    Bool.and_eq_true]
  obtain ⟨r, hr⟩ := List.exists_mem_of_ne_nil rows some
  exact ⟨fun h => ⟨(h r hr).1, fun r hr => (h r hr).2⟩, fun h r hr => ⟨h.1, h.2 r hr⟩⟩

/-- The banner of a block, if the layout writes it. -/
def titleLines (l : Layout) (b : Block) : List Text :=
  if b.comment.isEmpty || l.omitComments then [] else [l.banner.render b.comment]

theorem titleLines_abridged (l : Layout) (b : Block) :
    (b.abridged l).titleLines l.complete = b.titleLines l := by
  unfold titleLines abridged Layout.comment Layout.complete
  cases l.omitComments <;> simp

theorem lines_eq {b : Block} (some : b.rows ≠ []) :
    b.lines l = b.titleLines l ++ b.rows.flatMap (·.lines b.name l) :=
  if_neg (by simpa using some)

/-- **The lines of a block** are those of what the layout keeps of it, in full,
    unless its banner stands above none of its rows. -/
theorem lines_abridged {b : Block} (h : ¬ b.Stranded l) :
    (b.abridged l).lines l.complete = b.lines l := by
  by_cases none : b.rows = []
  · simp [lines, abridged, none]
  have rows : (b.abridged l).rows.flatMap (·.lines b.name l.complete) =
      b.rows.flatMap (·.lines b.name l) := Row.flatMap_lines_abridged l b.name b.rows
  by_cases left : (b.abridged l).rows = []
  · -- no row is kept, so the banner is not written either
    have out := (filter_keeps_eq_nil_iff none).1 (List.map_eq_nil_iff.1 left)
    have untitled : b.titleLines l = [] := by
      by_contra titled
      refine h ⟨?_, ?_, none, out.2, out.1⟩
      · rintro empty
        simp [titleLines, empty] at titled
      · cases hc : l.omitComments
        · rfl
        · simp [titleLines, hc] at titled
    rw [lines_eq none, untitled, ← rows, left]
    simp [lines, left]
  · rw [lines_eq left, lines_eq none, titleLines_abridged, ← rows]
    rfl

/-- Of a stranded block nothing is kept, but its banner is written. -/
theorem Stranded.lines {b : Block} (h : b.Stranded l) :
    (b.abridged l).lines l.complete = [] ∧ b.lines l = [l.banner.render b.comment] := by
  have out : b.rows.filter l.keeps = [] :=
    (filter_keeps_eq_nil_iff h.rows).2 ⟨h.left_out, h.disabled⟩
  have none : (b.abridged l).rows = [] := by simp [abridged, out]
  have rows := Row.flatMap_lines_abridged l b.name b.rows
  rw [out, List.map_nil, List.flatMap_nil] at rows
  constructor
  · simp [Block.lines, none]
  · rw [lines_eq h.rows, ← rows, titleLines, if_neg (by simp [h.title, h.written]), List.append_nil]

end Block

/-! ## Pieces of a text -/

section Pieces

variable {α ι : Type} (sep : List α)

theorem length_intercalate (ts : List (List α)) :
    (List.intercalate sep ts).length =
      (ts.map fun t => t.length + sep.length).sum - sep.length := by
  induction ts with
  | nil => simp
  | cons t ts ih =>
    cases ts with
    | nil => simp
    | cons u ts =>
      rw [List.intercalate_cons_cons, List.length_append, List.length_append, ih]
      simp only [List.map_cons, List.sum_cons]
      omega

/-- The length of a piece with a separator behind it.  An empty piece is not
    written, and takes no separator. -/
def pieceLength (t : List α) : Nat :=
  if t.isEmpty then 0 else t.length + sep.length

theorem length_intercalate_filter (ts : List (List α)) :
    (List.intercalate sep (ts.filter fun t => !t.isEmpty)).length =
      (ts.map (pieceLength sep)).sum - sep.length := by
  have sum : ((ts.filter fun t => !t.isEmpty).map fun t => t.length + sep.length).sum =
      (ts.map (pieceLength sep)).sum := by
    induction ts with
    | nil => rfl
    | cons t ts ih => cases t <;> simp [pieceLength, ih]
  rw [length_intercalate, sum]

theorem sum_pieceLength_le {f g : ι → List α} {items : List ι}
    (kept : ∀ i ∈ items, f i = g i ∨ f i = []) :
    ((items.map f).map (pieceLength sep)).sum ≤ ((items.map g).map (pieceLength sep)).sum := by
  induction items with
  | nil => exact Nat.le_refl 0
  | cons i items ih =>
    have rest := ih fun j hj => kept j (List.mem_cons_of_mem i hj)
    have first : pieceLength sep (f i) ≤ pieceLength sep (g i) := by
      rcases kept i List.mem_cons_self with same | out
      · rw [same]
      · simp [pieceLength, out]
    simp only [List.map_cons, List.sum_cons]
    omega

/-- With a piece left out, what is put together is shorter. -/
theorem length_intercalate_lt {f g : ι → List α} {items : List ι} {i : ι}
    (kept : ∀ i ∈ items, f i = g i ∨ f i = []) (hi : i ∈ items) (out : f i = [])
    (written : g i ≠ []) :
    (List.intercalate sep ((items.map f).filter fun t => !t.isEmpty)).length <
      (List.intercalate sep ((items.map g).filter fun t => !t.isEmpty)).length := by
  obtain ⟨above, below, rfl⟩ := List.append_of_mem hi
  have front := sum_pieceLength_le sep fun j hj => kept j (List.mem_append_left _ hj)
  have behind : ((below.map f).map (pieceLength sep)).sum ≤
      ((below.map g).map (pieceLength sep)).sum :=
    sum_pieceLength_le sep fun j hj =>
      kept j (List.mem_append_right above (List.mem_cons_of_mem i hj))
  have none : pieceLength sep (f i) = 0 := by simp [pieceLength, out]
  have some : sep.length < pieceLength sep (g i) := by
    have := List.length_pos_iff.2 written
    simp [pieceLength, written, this]
  rw [length_intercalate_filter, length_intercalate_filter]
  simp only [List.map_append, List.map_cons, List.sum_append, List.sum_cons]
  omega

end Pieces

/-! ## Documents -/

/-- The text of what a layout keeps of an item, in full. -/
def Item.abridgedText (l : Layout) (i : Item) : Text :=
  ((i.abridged? l).map (Item.render l.complete)).getD []

namespace Item

theorem abridgedText_row (l : Layout) (r : Row) :
    (Item.row r).abridgedText l = (Item.row r).render l := by
  cases h : l.keeps r with
  | true =>
    have item : (Item.row r).abridged? l = some (.row (r.abridged l)) := if_pos h
    rw [abridgedText, item]
    exact congrArg Text.joinLines (Row.lines_abridged h [])
  | false =>
    have item : (Item.row r).abridged? l = none := if_neg (by simp [h])
    rw [abridgedText, item]
    exact congrArg Text.joinLines (Row.lines_of_not_keeps h []).symm

theorem abridgedText_block {b : Block} (h : ¬ b.Stranded l) :
    (Item.block b).abridgedText l = (Item.block b).render l :=
  congrArg Text.joinLines (Block.lines_abridged h)

theorem abridgedText_stranded {b : Block} (h : b.Stranded l) :
    (Item.block b).abridgedText l = [] ∧ (Item.block b).render l ≠ [] := by
  obtain ⟨none, banner⟩ := h.lines
  refine ⟨congrArg Text.joinLines none, ?_⟩
  have written : (Item.block b).render l = l.banner.render b.comment := by
    rw [render, Item.lines, banner, Text.joinLines_singleton]
  rw [written]
  simp [Banner.Template.render, h.title]

end Item

namespace Document

/-- What is left out takes no separator. -/
theorem render_abridged (l : Layout) (d : Document) :
    (d.abridged l).render l.complete =
      List.intercalate l.separator
        ((d.items.map (Item.abridgedText l)).filter fun t => !t.isEmpty) := by
  -- an item that is left out counts as an empty text, which is filtered
  have pieces : ((d.abridged l).items.map (Item.render l.complete)).filter (fun t => !t.isEmpty) =
      (d.items.map (Item.abridgedText l)).filter fun t => !t.isEmpty := by
    unfold abridged
    induction d.items with
    | nil => rfl
    | cons i items ih =>
      unfold Item.abridgedText at ih ⊢
      cases h : i.abridged? l with
      | none => simp [h, ih]
      | some j => simp [h, ih, List.filter_cons]
  exact congrArg (List.intercalate l.separator) pieces

/-- **Writing in a layout is writing in full what the layout keeps,** exactly if
    no banner is left above rows that are all left out. -/
theorem render_eq_abridged_iff (d : Document) (l : Layout) :
    d.render l = (d.abridged l).render l.complete ↔ ∀ b ∈ d.blocks, ¬ b.Stranded l := by
  rw [render_abridged]
  constructor
  · -- each item of the abridged document is as long, but for a banner, which is lost
    intro same b hb stranded
    have item : Item.block b ∈ d.items := mem_blocks_iff.1 hb
    have kept : ∀ i ∈ d.items, i.abridgedText l = i.render l ∨ i.abridgedText l = [] := by
      intro i _
      cases i with
      | row r => exact .inl (Item.abridgedText_row l r)
      | block b =>
        by_cases h : b.Stranded l
        · exact .inr (Item.abridgedText_stranded h).1
        · exact .inl (Item.abridgedText_block h)
    obtain ⟨out, written⟩ := Item.abridgedText_stranded stranded
    have shorter := length_intercalate_lt l.separator kept item out written
    unfold render at same
    rw [← same] at shorter
    exact Nat.lt_irrefl _ shorter
  · intro none
    have pieces : d.items.map (Item.render l) = d.items.map (Item.abridgedText l) := by
      refine List.map_congr_left fun i hi => ?_
      cases i with
      | row r => exact (Item.abridgedText_row l r).symm
      | block b => exact (Item.abridgedText_block (none b (mem_blocks_iff.2 hi))).symm
    unfold render
    rw [pieces]

/-- A title alone is written above a row that is not of its block. -/
theorem render_title_alone :
    let l : Layout := { omitDisabled := true }
    let app : Block := { Block.ofName "app".toList with
      comment := "App".toList, rows := [{ key := "X".toList, value := "1".toList, disabled := true }] }
    let d : Document := { items := [.block app, .row (Row.ofPair "host".toList "h".toList)] }
    d.render l = "###   ---[ App ]---   ###\n\nHOST=\"h\"".toList ∧
      (d.abridged l).render l.complete = "HOST=\"h\"".toList ∧
      d.render l ≠ (d.abridged l).render l.complete := by
  decide

end Document

end EnvFile
