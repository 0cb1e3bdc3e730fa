import EnvFile.Proofs.BannerPlacing
import EnvFile.Proofs.SilentSegments

/-! # Paragraphs

    A paragraph is a segment that brings a row, live or disabled, below silent
    segments.  What waits for a row is handed to it or dropped, so nothing is
    carried from one paragraph to the next, and paragraphs that bring rows of
    different variables may come in any order.

    * `Reader.feedAll_paragraph`: reading a paragraph is taking in its row
      below its banner.
    * `Reader.Past`: the reader has read paragraphs, and nothing waits.  One
      paragraph more keeps the relation (`Past.receive`), so it holds after any
      number of them (`Past.feedAll`).
    * `Reader.feedAll_perm`: the order of paragraphs does not matter. -/

namespace EnvFile

/-- A segment that brings a row, below silent segments. -/
structure Paragraph (layout : Layout) where
  notes : List Text
  statement : Text
  assignment : Assignment
  disabled : Bool
  silent : ∀ t ∈ notes, Segment.Silent layout t
  brings : Segment.kind layout statement = .row assignment disabled

namespace Paragraph

variable {layout : Layout}

/-- The texts of its segments. -/
def texts (p : Paragraph layout) : List Text :=
  p.notes ++ [p.statement]

/-- The key of the row. -/
def key (p : Paragraph layout) : Text :=
  Key.normalize p.assignment.key

/-- The title of the last banner above the row. -/
def banner? (p : Paragraph layout) : Option Text :=
  (p.notes.filterMap (Segment.title? layout)).getLast?

/-- The row, with the comment lines above it. -/
def row (p : Paragraph layout) : Row :=
  .brought (p.notes.filterMap (Segment.remark? layout)) p.assignment p.disabled

/-- The occurrences of a variable come from the paragraphs of its key. -/
theorem occurrences_rows (ps : List (Paragraph layout)) (k : Text) :
    occurrences k (ps.map row) = (ps.filter (·.key == k)).map row :=
  List.filter_map

end Paragraph

namespace Reader

variable {s : Reader} {layout : Layout}

/-! ## One paragraph -/

/-- Of silent segments the comment lines wait, and the last banner. -/
theorem foldl_hear (s : Reader) (layout : Layout) (notes : List Text) :
    notes.foldl (hear layout) s =
      { s with
        comments := s.comments ++ notes.filterMap (Segment.remark? layout),
        banner := (notes.filterMap (Segment.title? layout)).getLast?.or s.banner } := by
  induction notes generalizing s with
  | nil => simp
  | cons t notes ih =>
    have comments : (Segment.remark? layout t).toList ++ notes.filterMap (Segment.remark? layout) =
        (t :: notes).filterMap (Segment.remark? layout) := by
      cases h : Segment.remark? layout t <;> simp [h]
    have banner : (notes.filterMap (Segment.title? layout)).getLast?.or
          ((Segment.title? layout t).or s.banner) =
        ((t :: notes).filterMap (Segment.title? layout)).getLast?.or s.banner := by
      rw [← Option.or_assoc]
      cases h : Segment.title? layout t with
      | none => simp [h]
      | some title =>
        rw [List.filterMap_cons_some h, List.getLast?_cons, Option.or_some]
    rw [List.foldl_cons, ih, ← comments, ← banner, ← List.append_assoc]
    rfl

/-- Silent segments are read one after the other. -/
theorem feedAll_silent {gs : List Segment} (silent : ∀ g ∈ gs, Segment.Silent layout g.text)
    (hnotes : ∀ l ∈ s.comments, Statement.IsNote l) :
    s.feedAll layout gs = .ok ((gs.map Segment.text).foldl (hear layout) s) ∧
      ∀ l ∈ ((gs.map Segment.text).foldl (hear layout) s).comments, Statement.IsNote l := by
  induction gs generalizing s with
  | nil => exact ⟨rfl, hnotes⟩
  | cons g gs ih =>
    have first := silent g List.mem_cons_self
    rw [feedAll_of_feed (feed_silent hnotes first)]
    exact ih (fun f hf => silent f (List.mem_cons_of_mem g hf)) (isNote_hear hnotes first)

/-- **Reading a paragraph is taking in its row below its banner.** -/
theorem feedAll_paragraph (comments : s.comments = []) (banner : s.banner = none)
    (p : Paragraph layout) {gs : List Segment} (texts : gs.map Segment.text = p.texts) :
    s.feedAll layout gs = .ok ({ s with banner := p.banner? }.receive p.row) := by
  obtain ⟨above, last, rfl, notes, statement⟩ := List.map_eq_append_iff.1 texts
  obtain ⟨g, rfl, text⟩ := List.map_eq_singleton_iff.1 statement
  have silent : ∀ g ∈ above, Segment.Silent layout g.text := by
    intro g hg
    exact p.silent _ (notes ▸ List.mem_map_of_mem hg)
  have none : ∀ l ∈ s.comments, Statement.IsNote l := by
    rw [comments]
    exact List.forall_mem_nil _
  obtain ⟨heard, hnotes⟩ := feedAll_silent silent none
  rw [feedAll_append, heard]
  show feedAll layout _ [g] = _
  rw [notes, foldl_hear] at hnotes ⊢
  -- what was heard waits when the statement is read, and is gone behind it
  have fed := feed_eq hnotes layout g
  rw [text, p.brings] at fed
  rw [feedAll_of_feed fed]
  simp only [comments, banner, List.nil_append, Option.or_none]
  rfl

/-! ## Any number of paragraphs -/

/-- The reader has read the paragraphs, and nothing waits. -/
structure Past (s : Reader) (ps : List (Paragraph layout)) : Prop where
  comments : s.comments = []
  banner : s.banner = none
  rows : s.Reflects (ps.map Paragraph.row)
  banners : ∀ k, s.rows.banner? k = (ps.filter (·.key == k)).findSome? Paragraph.banner?

theorem past_empty : Past {} ([] : List (Paragraph layout)) :=
  ⟨rfl, rfl, reflects_empty, fun _ => rfl⟩

/-- One paragraph more. -/
theorem Past.receive {ps : List (Paragraph layout)} (h : s.Past ps) (p : Paragraph layout) :
    Past ({ s with banner := p.banner? }.receive p.row) (ps ++ [p]) := by
  obtain ⟨comments, banner, placed⟩ := ({ s with banner := p.banner? } : Reader).receive_context p.row
  refine ⟨comments, banner, ?_, fun k => ?_⟩
  · have before : ({ s with banner := p.banner? } : Reader).Reflects (ps.map Paragraph.row) :=
      h.rows.congr rfl rfl
    rw [List.map_append]
    exact before.receive rfl
  · have waited := banner?_placeBanner { s with banner := p.banner? } p.key k
    unfold RowSet.banner? at waited ⊢
    rw [placed]
    refine waited.trans ?_
    rw [List.filter_append, List.findSome?_append, ← h.banners k]
    unfold RowSet.banner?
    by_cases hk : p.key = k
    · rw [if_pos hk, List.filter_cons_of_pos (by simpa using hk)]
      simp
    · rw [if_neg hk, List.filter_cons_of_neg (by simpa using hk)]
      simp

/-- Reading paragraphs succeeds, and nothing waits behind them. -/
theorem Past.feedAll {before ps : List (Paragraph layout)} (h : s.Past before) {gs : List Segment}
    (texts : gs.map Segment.text = ps.flatMap Paragraph.texts) :
    ∃ s', s.feedAll layout gs = .ok s' ∧ s'.Past (before ++ ps) := by
  induction ps generalizing s before gs with
  | nil =>
    have none : gs = [] := List.map_eq_nil_iff.1 texts
    rw [none, List.append_nil]
    exact ⟨s, rfl, h⟩
  | cons p ps ih =>
    rw [List.flatMap_cons] at texts
    obtain ⟨here, later, rfl, first, rest⟩ := List.map_eq_append_iff.1 texts
    obtain ⟨s', hs', past⟩ := ih (h.receive p) rest
    refine ⟨s', ?_, by simpa using past⟩
    rw [feedAll_append, feedAll_paragraph h.comments h.banner p first]
    exact hs'

/-! ## Distinct keys -/

section Distinct

variable {ps qs : List (Paragraph layout)} {p : Paragraph layout}

/-- Where no key occurs twice, every row is there as its paragraph brought it,
    and so is its banner. -/
theorem Past.found (h : s.Past ps) (distinct : (ps.map Paragraph.key).Nodup) (hp : p ∈ ps) :
    s.rows.find? p.key = some p.row ∧ s.rows.banner? p.key = p.banner? := by
  have alone := filter_eq_singleton distinct hp
  constructor
  · rw [h.rows.found, Paragraph.occurrences_rows, alone]
    exact settle_singleton rfl
  · rw [h.banners, alone]
    simp

/-- Readers that have read the same paragraphs hold the same, whatever the
    order. -/
theorem Past.rows_eq {t : Reader} (hs : s.Past ps) (ht : t.Past qs) (perm : ps.Perm qs)
    (distinct : (ps.map Paragraph.key).Nodup) : s.rows = t.rows := by
  apply RowSet.ext_find?
  · intro k
    rw [hs.rows.found, ht.rows.found, Paragraph.occurrences_rows, Paragraph.occurrences_rows,
      filter_key_perm perm distinct]
  · intro k
    rw [hs.banners, ht.banners, filter_key_perm perm distinct]

end Distinct

/-- **The order of paragraphs does not matter.**  Paragraphs that bring rows of
    distinct variables are read without failure, in any order, and come to the
    same rows and banners, hence to the same document: every row is there as
    its paragraph brought it, below the banner of its paragraph. -/
theorem feedAll_perm {ps qs : List (Paragraph layout)} (perm : ps.Perm qs)
    (distinct : (ps.map Paragraph.key).Nodup) {gs hs : List Segment}
    (first : gs.map Segment.text = ps.flatMap Paragraph.texts)
    (second : hs.map Segment.text = qs.flatMap Paragraph.texts) :
    ∃ rows : RowSet, (feedAll layout {} gs).map Reader.rows = .ok rows ∧
      (feedAll layout {} hs).map Reader.rows = .ok rows ∧
      (feedAll layout {} gs).map (fun s => s.rows.arrange layout) =
        (feedAll layout {} hs).map (fun s => s.rows.arrange layout) ∧
      ∀ p ∈ ps, rows.find? p.key = some p.row ∧ rows.banner? p.key = p.banner? := by
  obtain ⟨s, hs', pastS⟩ := past_empty.feedAll first
  obtain ⟨t, ht', pastT⟩ := past_empty.feedAll second
  have same : s.rows = t.rows := pastS.rows_eq pastT perm distinct
  rw [hs', ht']
  refine ⟨s.rows, rfl, ?_, ?_, fun p hp => pastS.found distinct hp⟩
  · exact congrArg Except.ok same.symm
  · exact congrArg (fun rows : RowSet => Except.ok (rows.arrange layout)) same

/-- A live row below a banner and a comment, and a disabled row below another
    comment. -/
theorem feedAll_perm_swapped :
    let live : Paragraph {} :=
      { notes := ["###   ---[ App ]---   ###".toList, "# first".toList],
        statement := "export app.name = x # third".toList,
        assignment := { key := "app.name".toList, value := ['x'], comment := "third".toList },
        disabled := false, silent := by decide, brings := by decide }
    let off : Paragraph {} :=
      { notes := ["#".toList, "  # = second".toList],
        statement := "#PORT=2".toList,
        assignment := { key := "PORT".toList, value := ['2'] },
        disabled := true, silent := by decide, brings := by decide }
    let file (ps : List (Paragraph {})) : List Segment :=
      Segment.number 1 ((ps.flatMap Paragraph.texts).map fun t => [t])
    (([live, off].map Paragraph.key).Nodup ∧ [live, off].Perm [off, live]) ∧
      ∃ rows : RowSet, (feedAll {} {} (file [live, off])).map Reader.rows = .ok rows ∧
        (feedAll {} {} (file [off, live])).map Reader.rows = .ok rows ∧
        rows.find? "APP.NAME".toList =
          some { key := "APP.NAME".toList, value := ['x'], comment := "first\nthird".toList } ∧
        rows.banner? "APP.NAME".toList = some "App".toList := by
  intro live off file
  have distinct : ([live, off].map Paragraph.key).Nodup := by decide
  have perm : [live, off].Perm [off, live] := .swap _ _ _
  have ahead : (file [live, off]).map Segment.text = [live, off].flatMap Paragraph.texts := rfl
  have swapped : (file [off, live]).map Segment.text = [off, live].flatMap Paragraph.texts := rfl
  obtain ⟨rows, first, second, -, found⟩ := feedAll_perm perm distinct ahead swapped
  obtain ⟨row, banner⟩ := found live List.mem_cons_self
  have name : live.key = "APP.NAME".toList := by decide
  have brought : live.row =
      { key := "APP.NAME".toList, value := ['x'], comment := "first\nthird".toList } := by decide
  have title : live.banner? = some "App".toList := by decide
  rw [name, brought] at row
  rw [name, title] at banner
  exact ⟨⟨distinct, perm⟩, rows, first, second, row, banner⟩

end Reader

end EnvFile
