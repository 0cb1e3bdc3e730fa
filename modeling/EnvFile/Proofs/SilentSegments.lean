import EnvFile.Proofs.SegmentKinds

/-! # Blank lines and comments between assignments

    A comment line waits for the row below it and is read once more together
    with that row, and a banner waits beside it.  Neither has a say in what
    the segments below are, in the rows that they bring, or in what becomes of
    a variable that is met more than once.

    * `Segment.Silent`: blank segments, banners, and comment lines that hold no
      assignment.
    * `Segment.Padded`: two files that differ in silent segments only.
    * `Reader.feed_silent`: a silent segment leaves the rows alone.
    * `Reader.Abreast`: two readers that have taken in the same rows, comments
      apart.  A segment that both read keeps them so (`Abreast.feed`).
    * `Reader.feedAll_padded`: two such files are rejected for the same text,
      or both give the same rows, comments apart. -/

namespace EnvFile

namespace Segment

variable {layout : Layout} {text : Text}

/-! ## Segments without rows -/

/-- A comment line, if it is one, is a single line. -/
def Brief (text : Text) : Prop :=
  text.trim.head? = some '#' → '\n' ∉ text.trim

instance : Decidable (Brief text) :=
  inferInstanceAs (Decidable (text.trim.head? = some '#' → '\n' ∉ text.trim))

/-- The segment is blank, or it is a single comment line that brings no row. -/
inductive Silent (layout : Layout) (text : Text) : Prop where
  | blank (empty : text.trim = [])
  | banner (mark : text.trim.head? = some '#') (whole : '\n' ∉ text.trim)
      (titled : layout.banner.title? text.trim ≠ none)
  | note (mark : text.trim.head? = some '#') (whole : '\n' ∉ text.trim)
      (idle : ∀ a, Statement.read? (text.trim.dropWhile (· == '#')) ≠ some (.assignment a))

instance : Decidable (Silent layout text) :=
  decidable_of_iff
    (text.trim = [] ∨ text.trim.head? = some '#' ∧ '\n' ∉ text.trim ∧
      (layout.banner.title? text.trim ≠ none ∨
        ∀ a, Statement.read? (text.trim.dropWhile (· == '#')) ≠ some (.assignment a))) <| by
    constructor
    · rintro (empty | ⟨mark, whole, titled | idle⟩)
      · exact .blank empty
      · exact .banner mark whole titled
      · exact .note mark whole idle
    · intro h
      cases h with
      | blank empty => exact .inl empty
      | banner mark whole titled => exact .inr ⟨mark, whole, .inl titled⟩
      | note mark whole idle => exact .inr ⟨mark, whole, .inr idle⟩

theorem mark_of_remark (h : kind layout text = .remark) : text.trim.head? = some '#' := by
  unfold kind statementKind at h
  split at h
  · cases h
  · split at h
    · assumption
    · split at h <;> cases h

/-- A comment line that holds no assignment is a banner, or waits, or has no
    text. -/
theorem commentKind_of_idle {t : Text}
    (idle : ∀ a, Statement.read? (t.dropWhile (· == '#')) ≠ some (.assignment a)) :
    commentKind layout t = .blank ∨ (∃ title, commentKind layout t = .banner title) ∨
      commentKind layout t = .remark := by
  unfold commentKind
  split
  · exact .inr (.inl ⟨_, rfl⟩)
  · split
    · rename_i a e
      exact absurd e (idle a)
    · exact .inl rfl
    · split
      · exact .inl rfl
      · exact .inr (.inr rfl)

theorem Silent.brief (h : Silent layout text) : Brief text := by
  intro mark
  cases h with
  | blank empty => simp [empty]
  | banner _ whole => exact whole
  | note _ whole => exact whole

theorem Silent.kind (h : Silent layout text) :
    kind layout text = .blank ∨ (∃ title, kind layout text = .banner title) ∨
      kind layout text = .remark := by
  cases h with
  | blank empty =>
    left
    unfold Segment.kind
    rw [if_pos empty]
  | banner mark whole titled =>
    obtain ⟨title, ht⟩ := Option.ne_none_iff_exists'.1 titled
    right; left
    refine ⟨title, ?_⟩
    rw [kind_of_mark mark]
    unfold commentKind
    rw [ht]
  | note mark whole idle =>
    rw [kind_of_mark mark]
    exact commentKind_of_idle idle

/-- The comment line that a segment leaves waiting. -/
def remark? (layout : Layout) (text : Text) : Option Text :=
  if kind layout text = .remark then some text.trim else none

/-- The title of a segment that is a banner. -/
def title? (layout : Layout) (text : Text) : Option Text :=
  match kind layout text with
  | .banner title => some title
  | _ => none

/-- The files differ in silent segments only, and in where lines are. -/
inductive Padded (layout : Layout) : List Segment → List Segment → Prop where
  | nil : Padded layout [] []
  | same {g h : Segment} {gs hs : List Segment} (text : g.text = h.text)
      (rest : Padded layout gs hs) : Padded layout (g :: gs) (h :: hs)
  | left {g : Segment} {gs hs : List Segment} (silent : Silent layout g.text)
      (rest : Padded layout gs hs) : Padded layout (g :: gs) hs
  | right {h : Segment} {gs hs : List Segment} (silent : Silent layout h.text)
      (rest : Padded layout gs hs) : Padded layout gs (h :: hs)

end Segment

/-- Both are rejected for the same text, or both are accepted, with results
    that are alike. -/
inductive Matching {α : Type} (alike : α → α → Prop) : Except Fault α → Except Fault α → Prop where
  | rejected (m n : Nat) (text : Text) :
      Matching alike (.error (.malformed m text)) (.error (.malformed n text))
  | accepted {a b : α} (same : alike a b) : Matching alike (.ok a) (.ok b)

/-- The row sets have the same rows, comments apart. -/
def RowSet.SameRows (s t : RowSet) : Prop :=
  ∀ k, (s.find? k).map Row.unannotated = (t.find? k).map Row.unannotated

namespace Reader

variable {s t : Reader} {layout : Layout}

/-! ## Reading silent segments -/

/-- What a silent segment leaves waiting. -/
def hear (layout : Layout) (s : Reader) (text : Text) : Reader :=
  { s with
    comments := s.comments ++ (Segment.remark? layout text).toList,
    banner := (Segment.title? layout text).or s.banner }

theorem isNote_hear (hnotes : ∀ l ∈ s.comments, Statement.IsNote l) {text : Text}
    (h : Segment.Silent layout text) : ∀ l ∈ (s.hear layout text).comments, Statement.IsNote l := by
  unfold hear Segment.remark?
  split
  · rename_i kind
    have mark := Segment.mark_of_remark kind
    exact Statement.isNote_concat hnotes mark (h.brief mark)
  · simpa using hnotes

/-- **A silent segment is read, and it leaves the rows alone.** -/
theorem feed_silent (hnotes : ∀ l ∈ s.comments, Statement.IsNote l) {g : Segment}
    (h : Segment.Silent layout g.text) : s.feed layout g = .ok (s.hear layout g.text) := by
  rw [feed_eq hnotes]
  unfold hear Segment.remark? Segment.title?
  rcases h.kind with kind | ⟨title, kind⟩ | kind
  · simp [kind, act]
  · simp [kind, act]
  · simp [kind, act]

/-! ## Two readers -/

/-- The readers have taken in the same rows, comments apart.  What waits for a
    row may differ. -/
structure Abreast (s t : Reader) : Prop where
  taken : ∃ rows rows', s.Reflects rows ∧ t.Reflects rows' ∧
    rows.map Row.unannotated = rows'.map Row.unannotated
  left : ∀ l ∈ s.comments, Statement.IsNote l
  right : ∀ l ∈ t.comments, Statement.IsNote l

/-- What waits for a row does not count. -/
theorem Abreast.congr (h : Abreast s t) {s' t' : Reader}
    (hs : s'.rows = s.rows ∧ s'.history = s.history)
    (ht : t'.rows = t.rows ∧ t'.history = t.history)
    (left : ∀ l ∈ s'.comments, Statement.IsNote l) (right : ∀ l ∈ t'.comments, Statement.IsNote l) :
    Abreast s' t' := by
  obtain ⟨rows, rows', reflects, reflects', same⟩ := h.taken
  refine ⟨⟨rows, rows', ?_, ?_, same⟩, left, right⟩
  · exact reflects.congr (congrArg RowSet.rows hs.1) hs.2
  · exact reflects'.congr (congrArg RowSet.rows ht.1) ht.2

/-- Readers that are abreast hold the same rows, comments apart. -/
theorem Abreast.sameRows (h : Abreast s t) : s.rows.SameRows t.rows := by
  obtain ⟨rows, rows', hs, ht, same⟩ := h.taken
  intro k
  have settled : (settle (occurrences k rows)).map Row.unannotated =
      (settle (occurrences k rows')).map Row.unannotated := by
    rw [← settle_unannotated, ← occurrences_unannotated, same, occurrences_unannotated,
      settle_unannotated]
  rw [hs.found, ht.found, settled]

/-- The same assignment brings both readers the same row, comments apart. -/
theorem Abreast.receive (h : Abreast s t) (a : Assignment) (disabled : Bool) :
    Abreast (s.receive (.brought s.comments a disabled))
      (t.receive (.brought t.comments a disabled)) := by
  obtain ⟨rows, rows', hs, ht, same⟩ := h.taken
  constructor
  · refine ⟨_, _, hs.receive rfl, ht.receive rfl, ?_⟩
    rw [List.map_append, List.map_append, same]
    rfl
  · rw [(s.receive_context _).1]
    exact List.forall_mem_nil _
  · rw [(t.receive_context _).1]
    exact List.forall_mem_nil _

/-- Segments of one text keep two readers abreast, unless the text is
    malformed; then they fail both. -/
theorem Abreast.feed (h : Abreast s t) {g g' : Segment} (text : g.text = g'.text)
    (brief : Segment.Brief g.text) : Matching Abreast (s.feed layout g) (t.feed layout g') := by
  -- what the segment is does not depend on what waits, so it is the same for both
  rw [feed_eq h.left, feed_eq h.right, ← text]
  cases kind : Segment.kind layout g.text with
  | blank => exact .accepted h
  | banner title => exact .accepted (h.congr ⟨rfl, rfl⟩ ⟨rfl, rfl⟩ h.left h.right)
  | remark =>
    have mark := Segment.mark_of_remark kind
    have notes := Statement.isNote_concat h.left mark (brief mark)
    have notes' := Statement.isNote_concat h.right mark (brief mark)
    unfold act
    rw [← text]
    exact .accepted (h.congr ⟨rfl, rfl⟩ ⟨rfl, rfl⟩ notes notes')
  | row a disabled => exact .accepted (h.receive a disabled)
  | idle =>
    exact .accepted (h.congr ⟨rfl, rfl⟩ ⟨rfl, rfl⟩ (List.forall_mem_nil _) (List.forall_mem_nil _))
  | malformed =>
    unfold act
    rw [← text]
    exact .rejected _ _ _

/-! ## Two runs -/

/-- Whatever silent segments stand between, the readers stay abreast. -/
theorem Abreast.feedAll {gs hs : List Segment} (padded : Segment.Padded layout gs hs)
    (brief : ∀ g ∈ gs, Segment.Brief g.text) (h : Abreast s t) :
    Matching Abreast (s.feedAll layout gs) (t.feedAll layout hs) := by
  -- induction on where the files differ; a silent segment is a step of one reader alone
  induction padded generalizing s t with
  | nil => exact .accepted h
  | @same g g' gs hs text rest ih =>
    have step : Matching Abreast (s.feed layout g) (t.feed layout g') :=
      h.feed text (brief g List.mem_cons_self)
    unfold Reader.feedAll
    generalize s.feed layout g = x at step ⊢
    generalize t.feed layout g' = y at step ⊢
    cases step with
    | rejected m n text => exact .rejected m n text
    | accepted next => exact ih (fun f hf => brief f (List.mem_cons_of_mem g hf)) next
  | @left g gs hs silent rest ih =>
    rw [feedAll_of_feed (feed_silent h.left silent)]
    exact ih (fun f hf => brief f (List.mem_cons_of_mem g hf))
      (h.congr ⟨rfl, rfl⟩ ⟨rfl, rfl⟩ (isNote_hear h.left silent) h.right)
  | right silent rest ih =>
    rw [feedAll_of_feed (feed_silent h.right silent)]
    exact ih brief (h.congr ⟨rfl, rfl⟩ ⟨rfl, rfl⟩ h.left (isNote_hear h.right silent))

/-- **Blank lines and comments are inert.**  Take two files that differ in
    blank segments, banners and comment lines without assignments only, each
    comment a single line.  Either both are rejected for the same text, or both
    are read and come to the same rows, comments apart. -/
theorem feedAll_padded {gs hs : List Segment} (padded : Segment.Padded layout gs hs)
    (brief : ∀ g ∈ gs, Segment.Brief g.text) :
    Matching RowSet.SameRows ((feedAll layout {} gs).map Reader.rows)
      ((feedAll layout {} hs).map Reader.rows) := by
  have start : Abreast {} {} :=
    ⟨⟨[], [], reflects_empty, reflects_empty, rfl⟩, List.forall_mem_nil _, List.forall_mem_nil _⟩
  have run := start.feedAll padded brief
  generalize feedAll layout {} gs = x at run ⊢
  generalize feedAll layout {} hs = y at run ⊢
  cases run with
  | rejected m n text => exact .rejected m n text
  | accepted abreast => exact .accepted abreast.sameRows

/-- A banner, a blank line and two comments more, and one comment less: the
    rows have other comments, and nothing else is different. -/
theorem feedAll_padded_sample :
    let file (texts : List String) : List Segment :=
      Segment.number 1 (texts.map fun t => [t.toList])
    let gs := file ["A=1", "# note", "#B=2", "B=3 # old", "A=4"]
    let hs := file ["###   ---[ Title ]---   ###", "A=1", " ", "# = 7", "#B=2", "#export x",
      "B=3 # old", "A=4"]
    Segment.Padded {} gs hs ∧ (∀ g ∈ gs, Segment.Brief g.text) ∧
      Matching RowSet.SameRows ((feedAll {} {} gs).map Reader.rows)
        ((feedAll {} {} hs).map Reader.rows) ∧
      (feedAll {} {} gs).map Reader.rows ≠ (feedAll {} {} hs).map Reader.rows := by
  intro file gs hs
  have padded : Segment.Padded {} gs hs := by
    refine .right (by decide) (.same rfl (.left (by decide) ?_))
    refine .right (by decide) (.right (by decide) (.same rfl ?_))
    exact .right (by decide) (.same rfl (.same rfl .nil))
  have brief : ∀ g ∈ gs, Segment.Brief g.text := by decide
  exact ⟨padded, brief, feedAll_padded padded brief, by decide +kernel⟩

end Reader

end EnvFile
