import EnvFile.Document.Read
import EnvFile.Proofs.CleanReading

/-! # Which variables survive a save

    A document that was read from a text is written and read again.  Every
    variable is still there, and live exactly if it was.  What may come to it
    are variables that a comment names: a line of a comment that reads as an
    assignment is a disabled row when it stands on a line of its own.

    * `Document.mentions`: the variables of a document, live or disabled.
    * `Document.annotated`: the variables that its comments assign to.
    * `Document.ofText_render_ofText`: which variables are there after a save,
      and that they are the same exactly if comments assign to none but
      those. -/

namespace EnvFile

/-! ## What is mentioned -/

/-- The variables of a document, each with whether it is disabled. -/
def Document.mentions (d : Document) : List (Text × Bool) :=
  d.flat.map fun r => (r.key, r.disabled)

theorem mem_mentions {d : Document} {r : Row} (h : r ∈ d.flat) :
    (r.key, r.disabled) ∈ d.mentions :=
  List.mem_map_of_mem (f := fun r : Row => (r.key, r.disabled)) h

/-- The key that a comment line assigns to. -/
def Statement.assigned? (c : Text) : Option Text :=
  match read? c with
  | some (.assignment a) => some (Key.normalize a.key)
  | _ => none

/-- The variables that the comments of a document assign to. -/
def Document.annotated (d : Document) : List Text :=
  d.flat.flatMap fun r => r.comment.lines.filterMap Statement.assigned?

/-- The variable that a line mentions, and whether as a disabled one. -/
def Line.mention? : Line → Option (Text × Bool)
  | gap => none
  | title _ => none
  | note t => (Statement.assigned? t).map fun k => (k, true)
  | define key _ disabled => some (key, disabled)

theorem Line.map_row? (notes : List Text) (l : Line) :
    (l.row? notes).map (fun r => (r.key, r.disabled)) = l.mention? := by
  cases l with
  | gap => rfl
  | title t => rfl
  | define key value disabled => rfl
  | note t =>
    simp only [Line.row?, Line.mention?, Statement.assigned?]
    cases Statement.read? t with
    | none => rfl
    | some st => cases st <;> rfl

/-- What the readings of lines mention does not depend on what waits. -/
theorem map_readings (notes : List Text) (ls : List Line) :
    (readings notes ls).map (fun r => (r.key, r.disabled)) = ls.filterMap Line.mention? := by
  induction ls generalizing notes with
  | nil => rfl
  | cons l ls ih =>
    have hl := l.map_row? notes
    cases h : l.row? notes with
    | some r =>
      rw [h] at hl
      rw [(readings_of_row? h ls).1, List.map_cons, ih, List.filterMap_cons_some hl.symm]
    | none =>
      rw [h] at hl
      rw [(readings_of_waits h ls).1, ih, List.filterMap_cons_none hl.symm]

/-! ## What occurrences come to -/

/-- Occurrences come to a live row if one of them is live, and to a disabled
    one if there are some and none is. -/
theorem exists_settle_iff {os : List Row} {b : Bool} :
    (∃ r, settle os = some r ∧ r.disabled = b) ↔
      (∃ o ∈ os, o.disabled = b) ∧ (b = true → ¬ ∃ o ∈ os, o.disabled = false) := by
  rcases occurrences_trichotomy os with rfl | ⟨first, later, rfl, dis⟩ |
    ⟨pre, first, later, rfl, dis, live⟩
  · simp
  · have hnone : ¬ ∃ o ∈ first :: later, o.disabled = false := by
      intro h
      obtain ⟨o, ho, live⟩ := h
      rw [dis o ho] at live
      cases live
    rw [settle_of_disabled dis]
    cases b with
    | false =>
      simp only [hnone]
      simp
    | true =>
      have hsome : ∃ o ∈ first :: later, o.disabled = true :=
        ⟨first, List.mem_cons_self, dis first List.mem_cons_self⟩
      simp only [hsome, hnone]
      simp
  · have hsome : ∃ o ∈ pre ++ first :: later, o.disabled = false := ⟨first, by simp, live⟩
    rw [settle_of_live dis live]
    cases b with
    | false =>
      simp only [hsome]
      simp
    | true =>
      simp only [hsome]
      simp

/-- A variable is live if it is mentioned live, and disabled if it is mentioned
    as disabled only. -/
theorem Reader.Reflects.exists_iff {s : Reader} {rows : List Row} (h : s.Reflects rows) (k : Text)
    (b : Bool) :
    (∃ r, s.rows.find? k = some r ∧ r.disabled = b) ↔
      (k, b) ∈ rows.map (fun r => (r.key, r.disabled)) ∧
        (b = true → (k, false) ∉ rows.map fun r => (r.key, r.disabled)) := by
  have hmem (c : Bool) : (k, c) ∈ rows.map (fun r => (r.key, r.disabled)) ↔
      ∃ r ∈ occurrences k rows, r.disabled = c := by
    unfold occurrences
    simp only [List.mem_map, List.mem_filter, Prod.mk.injEq, beq_iff_eq, and_assoc]
  rw [h.found k, hmem, hmem]
  exact exists_settle_iff

/-! ## What a document mentions -/

namespace RowSet

theorem mem_mentions_arrange (s : RowSet) (layout : Layout) {k : Text} {b : Bool} :
    (k, b) ∈ (s.arrange layout).mentions ↔ ∃ r, s.find? k = some r ∧ r.disabled = b := by
  unfold Document.mentions
  constructor
  · intro h
    obtain ⟨r, hr, e⟩ := List.mem_map.1 h
    cases e
    exact ⟨r, (s.mem_flat_arrange_iff layout).1 hr, rfl⟩
  · rintro ⟨r, hr, rfl⟩
    have hkey : r.key = k := Catalog.key_eq_of_find? hr
    subst hkey
    exact List.mem_map_of_mem ((s.mem_flat_arrange_iff layout).2 hr)

end RowSet

theorem mem_mentions_notes {cs : List Text} {k : Text} {b : Bool} :
    (k, b) ∈ (cs.map Line.note).filterMap Line.mention? ↔
      b = true ∧ k ∈ cs.filterMap Statement.assigned? := by
  simp only [List.mem_filterMap, List.mem_map]
  constructor
  · rintro ⟨-, ⟨c, hc, rfl⟩, hm⟩
    obtain ⟨k', hk', e⟩ := Option.map_eq_some_iff.1 hm
    cases e
    exact ⟨rfl, c, hc, hk'⟩
  · rintro ⟨rfl, c, hc, hk⟩
    exact ⟨_, ⟨c, hc, rfl⟩, Option.map_eq_some_iff.2 ⟨k, hk, rfl⟩⟩

/-- What the comment lines of a row mention: what its comment assigns to. -/
theorem mem_mentions_comment (layout : Layout) (r : Row) {k : Text} {b : Bool} :
    (k, b) ∈ (if r.comment.isEmpty || layout.omitComments then []
        else r.comment.lines.map Line.note).filterMap Line.mention? ↔
      layout.omitComments = false ∧ b = true ∧
        k ∈ r.comment.lines.filterMap Statement.assigned? := by
  cases ho : layout.omitComments with
  | true => simp
  | false =>
    by_cases hc : r.comment = []
    · -- the one line of the empty comment assigns to nothing
      have hnone : r.comment.lines.filterMap Statement.assigned? = [] := by
        rw [hc]
        rfl
      rw [hnone, hc]
      simp
    · rw [if_neg (by simpa using hc), mem_mentions_notes]
      simp

/-- What the shadow lines of a row mention: its own key, as disabled. -/
theorem mem_mentions_shadows (layout : Layout) (r : Row) {k : Text} {b : Bool} :
    (k, b) ∈ (if r.disabled || layout.omitShadows then []
        else r.shadows.map fun v => Line.define r.key v true).filterMap Line.mention? ↔
      k = r.key ∧ b = true ∧ r.disabled = false ∧ layout.omitShadows = false ∧
        r.shadows ≠ [] := by
  by_cases hskip : (r.disabled || layout.omitShadows) = true
  · rw [if_pos hskip]
    rcases Bool.or_eq_true_iff.1 hskip with h | h <;> simp [h]
  · obtain ⟨hr, ho⟩ := Bool.or_eq_false_iff.1 (Bool.eq_false_iff.2 hskip)
    rw [if_neg hskip, List.mem_filterMap]
    constructor
    · rintro ⟨l, hl, hm⟩
      obtain ⟨v, hv, rfl⟩ := List.mem_map.1 hl
      cases hm
      exact ⟨rfl, rfl, hr, ho, List.ne_nil_of_mem hv⟩
    · rintro ⟨rfl, rfl, -, -, hne⟩
      obtain ⟨v, hv⟩ := List.exists_mem_of_ne_nil _ hne
      exact ⟨_, List.mem_map_of_mem hv, rfl⟩

/-- What the lines of a row mention: what its comment assigns to, and its own
    key. -/
theorem mem_mentions_script {layout : Layout} (hd : layout.omitDisabled = false) (r : Row)
    {k : Text} {b : Bool} :
    (k, b) ∈ (r.script layout r.key).filterMap Line.mention? ↔
      (layout.omitComments = false ∧ b = true ∧
        k ∈ r.comment.lines.filterMap Statement.assigned?) ∨
      (k = r.key ∧ b = true ∧ r.disabled = false ∧ layout.omitShadows = false ∧
        r.shadows ≠ []) ∨
      (k = r.key ∧ b = r.disabled) := by
  unfold Row.script
  rw [hd, Bool.and_false, if_neg (by decide), List.filterMap_append, List.filterMap_append,
    List.mem_append, List.mem_append, mem_mentions_comment, mem_mentions_shadows, or_assoc]
  simp [Line.mention?]

/-- What the lines of a document mention, row by row. -/
def Document.lineMentions (layout : Layout) (d : Document) : List (Text × Bool) :=
  d.flat.flatMap fun r => (r.script layout r.key).filterMap Line.mention?

theorem map_readings_items (layout : Layout) (d : Document) :
    (readings [] (d.items.flatMap (Item.script layout))).map (fun r => (r.key, r.disabled)) =
      d.lineMentions layout := by
  unfold Document.lineMentions
  rw [readings_items, List.map_flatMap]
  simp only [map_readings]

namespace Document

variable {layout : Layout} {d : Document} {k : Text}

/-- The line of a variable's own row mentions it as it is. -/
theorem mem_lineMentions (hd : layout.omitDisabled = false) {b : Bool} (h : (k, b) ∈ d.mentions) :
    (k, b) ∈ d.lineMentions layout := by
  obtain ⟨r, hr, e⟩ := List.mem_map.1 h
  cases e
  exact List.mem_flatMap.2 ⟨r, hr, (mem_mentions_script hd r).2 (.inr (.inr ⟨rfl, rfl⟩))⟩

/-- Shadows and comments mention variables as disabled, so a live one is there
    itself. -/
theorem mem_mentions_of_live (hd : layout.omitDisabled = false)
    (h : (k, false) ∈ d.lineMentions layout) : (k, false) ∈ d.mentions := by
  obtain ⟨r, hr, hm⟩ := List.mem_flatMap.1 h
  rcases (mem_mentions_script hd r).1 hm with ⟨-, hb, -⟩ | ⟨-, hb, -⟩ | ⟨hk, hb⟩
  · cases hb
  · cases hb
  · rw [hk, hb]
    exact mem_mentions hr

/-- What is mentioned as disabled is a variable of the document, or a comment
    assigns to it. -/
theorem mentioned_or_annotated (hd : layout.omitDisabled = false)
    (h : (k, true) ∈ d.lineMentions layout) :
    (∃ b, (k, b) ∈ d.mentions) ∨ (layout.omitComments = false ∧ k ∈ d.annotated) := by
  obtain ⟨r, hr, hm⟩ := List.mem_flatMap.1 h
  rcases (mem_mentions_script hd r).1 hm with ⟨homit, -, hc⟩ | ⟨hk, -⟩ | ⟨hk, -⟩
  · exact .inr ⟨homit, List.mem_flatMap.2 ⟨r, hr, hc⟩⟩
  · exact .inl ⟨r.disabled, hk ▸ mem_mentions hr⟩
  · exact .inl ⟨r.disabled, hk ▸ mem_mentions hr⟩

theorem mem_lineMentions_of_annotated (hd : layout.omitDisabled = false)
    (homit : layout.omitComments = false) (h : k ∈ d.annotated) :
    (k, true) ∈ d.lineMentions layout := by
  obtain ⟨r, hr, hc⟩ := List.mem_flatMap.1 h
  exact List.mem_flatMap.2 ⟨r, hr, (mem_mentions_script hd r).2 (.inl ⟨homit, rfl, hc⟩)⟩

end Document

/-- No variable is mentioned both live and disabled. -/
theorem RowSet.mention_unique (s : RowSet) (layout : Layout) {k : Text} {b c : Bool}
    (hb : (k, b) ∈ (s.arrange layout).mentions) (hc : (k, c) ∈ (s.arrange layout).mentions) :
    b = c := by
  obtain ⟨r, hr, rfl⟩ := (s.mem_mentions_arrange layout).1 hb
  obtain ⟨r', hr', rfl⟩ := (s.mem_mentions_arrange layout).1 hc
  rw [hr] at hr'
  cases hr'
  rfl

/-- The variables after a save in a layout that leaves no row out. -/
theorem RowSet.mentions_reread (s : RowSet) (layout : Layout) {written : Layout}
    (hb : layout.banner = {}) (hw : written.banner = {}) (few : written.Separable)
    (hd : written.omitDisabled = false) (clean : (s.arrange layout).Clean written) :
    ∃ d', Document.ofText layout ((s.arrange layout).render written) = .ok d' ∧
      ∀ k b, (k, b) ∈ d'.mentions ↔ (k, b) ∈ (s.arrange layout).mentions ∨
        (written.omitComments = false ∧ b = true ∧ k ∈ (s.arrange layout).annotated ∧
          ∀ c, (k, c) ∉ (s.arrange layout).mentions) := by
  have hread := clean.reread hw few hb
  generalize hs' : (Reader.takeAll {}
    ((s.arrange layout).items.flatMap (Item.script written))).rows = s' at hread
  have hreflects := Reader.reflects_empty.takeAll
    ((s.arrange layout).items.flatMap (Item.script written))
  refine ⟨s'.arrange layout, by unfold Document.ofText; rw [hread]; rfl, fun k b => ?_⟩
  have hiff := hreflects.exists_iff k b
  rw [hs', List.nil_append, map_readings_items] at hiff
  rw [s'.mem_mentions_arrange layout, hiff]
  have own (c : Bool) (hc : (k, c) ∈ (s.arrange layout).mentions) :=
    Document.mem_lineMentions hd hc
  have live (hf : (k, false) ∈ (s.arrange layout).lineMentions written) :=
    Document.mem_mentions_of_live hd hf
  cases b with
  | false =>
    constructor
    · intro h
      exact .inl (live h.1)
    · rintro (h | ⟨-, h, -⟩)
      · exact ⟨own _ h, by simp⟩
      · cases h
  | true =>
    constructor
    · rintro ⟨h, honly⟩
      -- a variable that was there is there as disabled, since nothing mentions it live
      have same : (∃ c, (k, c) ∈ (s.arrange layout).mentions) →
          (k, true) ∈ (s.arrange layout).mentions := by
        intro hm
        obtain ⟨c, hc⟩ := hm
        cases c with
        | true => exact hc
        | false => exact absurd (own _ hc) (honly rfl)
      by_cases hm : ∃ c, (k, c) ∈ (s.arrange layout).mentions
      · exact .inl (same hm)
      · obtain ⟨homit, hk⟩ := (Document.mentioned_or_annotated hd h).resolve_left hm
        exact .inr ⟨homit, rfl, hk, fun c hc => hm ⟨c, hc⟩⟩
    · rintro (h | ⟨homit, -, hk, hnone⟩)
      · refine ⟨own _ h, fun _ hf => ?_⟩
        have := s.mention_unique layout h (live hf)
        cases this
      · exact ⟨Document.mem_lineMentions_of_annotated hd homit hk,
          fun _ hf => hnone false (live hf)⟩

/-! ## Saving what was read -/

/-- What was read of a text can be written and read again, where titles take
    one line each or are not written. -/
theorem RowSet.clean_arrange {layout written : Layout} {t : Text} {s : RowSet}
    (h : RowSet.ofText layout t = .ok s)
    (whole : written.omitComments = false →
      ∀ b, Item.block b ∈ (s.arrange layout).items → '\n' ∉ b.comment) :
    (s.arrange layout).Clean written := by
  obtain ⟨hrows, hbanners⟩ := RowSet.tidy_ofText h
  have tidy : ∀ r ∈ (s.arrange layout).flat, Key.Canonical r.key ∧ '\r' ∉ r.comment :=
    fun r hr => hrows r.key r ((s.mem_flat_arrange_iff layout).1 hr)
  have titles : ∀ b, Item.block b ∈ (s.arrange layout).items → '\r' ∉ b.comment := by
    intro b hb
    exact s.title_of_banners layout (P := fun t => '\r' ∉ t) List.not_mem_nil hbanners hb
  exact ⟨fun r hr => (tidy r hr).1, fun _ r hr => (tidy r hr).2,
    fun homit b hb => ⟨whole homit b hb, titles b hb⟩⟩

/-- **What a save does to variables.**  Of a text that can be read, written
    without comments and banners and read again, the variables are the same,
    live and disabled ones.

    Written in full, with titles of one line each, they are the same and the
    ones that comments assign to, which become disabled rows.  So they are the
    same exactly if comments assign to no others. -/
theorem Document.ofText_render_ofText (t : Text) (d : Document)
    (h : Document.ofText {} t = .ok d) :
    (∃ d', Document.ofText {} (d.render { omitComments := true }) = .ok d' ∧
      ∀ v, v ∈ d'.mentions ↔ v ∈ d.mentions) ∧
    ((∀ b, Item.block b ∈ d.items → '\n' ∉ b.comment) →
      ∃ d', Document.ofText {} (d.render {}) = .ok d' ∧
        (∀ k b, (k, b) ∈ d'.mentions ↔ (k, b) ∈ d.mentions ∨
          (b = true ∧ k ∈ d.annotated ∧ ∀ c, (k, c) ∉ d.mentions)) ∧
        ((∀ v, v ∈ d'.mentions ↔ v ∈ d.mentions) ↔
          ∀ k ∈ d.annotated, ∃ b, (k, b) ∈ d.mentions)) := by
  unfold Document.ofText at h
  cases hs : RowSet.ofText {} t with
  | error e => rw [hs] at h; cases h
  | ok s =>
    rw [hs] at h
    cases h
    constructor
    · have clean : (s.arrange {}).Clean { omitComments := true } :=
        RowSet.clean_arrange hs fun homit => by cases homit
      obtain ⟨d', hd', hmem⟩ := s.mentions_reread {} rfl rfl (by decide) rfl clean
      refine ⟨d', hd', fun v => ?_⟩
      simpa using hmem v.1 v.2
    · intro whole
      have clean : (s.arrange {}).Clean {} := RowSet.clean_arrange hs fun _ => whole
      obtain ⟨d', hd', hmem⟩ := s.mentions_reread {} rfl rfl (by decide) rfl clean
      have hmem' : ∀ k b, (k, b) ∈ d'.mentions ↔ (k, b) ∈ (s.arrange {}).mentions ∨
          (b = true ∧ k ∈ (s.arrange {}).annotated ∧ ∀ c, (k, c) ∉ (s.arrange {}).mentions) := by
        intro k b
        simpa using hmem k b
      refine ⟨d', hd', hmem', fun same k hk => ?_, fun within v => ?_⟩
      · by_contra hnone
        have hnew := (hmem' k true).2 (.inr ⟨rfl, hk, fun c hc => hnone ⟨c, hc⟩⟩)
        exact hnone ⟨true, (same _).1 hnew⟩
      · rw [hmem' v.1 v.2]
        constructor
        · rintro (hv | ⟨-, hk, hnone⟩)
          · exact hv
          · obtain ⟨b, hb⟩ := within _ hk
            exact absurd hb (hnone b)
        · exact .inl

/-- A block below a banner, where a comment names another variable of the
    file, and a loose row, where a comment names one that the file does not
    have: the save adds that one. -/
theorem Document.ofText_render_ofText_sample :
    let t := "###   ---[ app ]---   ###\nAPP_A=1 # APP_B=2\n# APP_B=3\nC=4 # D=5".toList
    ∃ d d', Document.ofText {} t = .ok d ∧ Document.ofText {} (d.render {}) = .ok d' ∧
      (∀ k b, (k, b) ∈ d.mentions → (k, b) ∈ d'.mentions) ∧
      ("D".toList, true) ∈ d'.mentions ∧ ∀ b, ("D".toList, b) ∉ d.mentions := by
  intro t
  let d : Document := (Document.ofText {} t).toOption.getD {}
  have hd : Document.ofText {} t = .ok d := by decide +kernel
  have whole : ∀ i ∈ d.items, ∀ b ∈ i.block?, '\n' ∉ b.comment := by decide +kernel
  have annotated : "D".toList ∈ d.annotated := by decide +kernel
  have absent : ∀ p ∈ d.mentions, p.1 ≠ "D".toList := by decide +kernel
  have hnew : ∀ b, ("D".toList, b) ∉ d.mentions := fun b hb => absent _ hb rfl
  obtain ⟨-, full⟩ := ofText_render_ofText t d hd
  obtain ⟨d', hd', hmem, -⟩ := full fun b hb => whole _ hb b rfl
  refine ⟨d, d', hd, hd', fun k b h => (hmem k b).2 (.inl h), ?_, hnew⟩
  exact (hmem _ _).2 (.inr ⟨rfl, annotated, hnew⟩)

/-- A save can invent a variable, out of a comment behind an assignment, and it
    can leave a text that cannot be read again, where a banner behind an
    uncommon blank runs over two lines. -/
theorem Document.exists_variable_invented :
    (∃ d d', Document.ofText {} "A=1 # B=2".toList = .ok d ∧
      Document.ofText {} (d.render {}) = .ok d' ∧ d.mentions = [("A".toList, false)] ∧
      d'.mentions = [("A".toList, false), ("B".toList, true)]) ∧
    (∃ d e, Document.ofText {} "\u00a0###   ---[ a=\"x\ny\" ]---   ###\nG_A=1".toList = .ok d ∧
      Document.ofText {} (d.render {}) = .error e) := by
  let inline : Document := (Document.ofText {} "A=1 # B=2".toList).toOption.getD {}
  let titled : Document :=
    (Document.ofText {} "\u00a0###   ---[ a=\"x\ny\" ]---   ###\nG_A=1".toList).toOption.getD {}
  have fails : (Document.ofText {} (titled.render {})).toOption = none := by decide +kernel
  refine ⟨⟨inline, (Document.ofText {} (inline.render {})).toOption.getD {}, ?_⟩, titled, ?_⟩
  · decide +kernel
  · cases he : Document.ofText {} (titled.render {}) with
    | ok d =>
      rw [he] at fails
      cases fails
    | error e => exact ⟨e, by decide +kernel, rfl⟩

end EnvFile
