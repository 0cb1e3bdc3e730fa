import EnvFile.Proofs.InertLines

/-! # The lines that annotations hide

    A comment is written line by line, and a banner as one line.  But both are
    cut at line feeds at most, and a reader ends a line at a carriage return
    too, so one written line may be several lines to the reader.  Those after
    the first have no comment marker: they are *hidden* in the annotation.

    * `Document.hidden`: the hidden lines of a document.
    * `Document.Clean.hidden`: there are none if the annotations have no line
      endings.
    * `Document.Assembled.entries_reread`: if the hidden lines are inert, the
      live variables that are read are those that were written. -/

namespace EnvFile

/-! ## Line endings between texts -/

namespace Text

/-- A line feed between two texts ends a line.  If a carriage return stands
    before it, the two are one line ending. -/
theorem normalizeNewlines_append (t u : Text) :
    ∃ x, (t ++ '\n' :: u).normalizeNewlines = x ++ '\n' :: u.normalizeNewlines ∧
      (t.normalizeNewlines = x ∨ t.normalizeNewlines = x ++ ['\n']) := by
  have feed (u : Text) : normalizeNewlines ('\n' :: u) = '\n' :: u.normalizeNewlines := by
    simp [normalizeNewlines]
  fun_induction normalizeNewlines t with
  | case1 => exact ⟨[], feed u, .inl rfl⟩
  | case2 t ih =>
    obtain ⟨x, hx, ht⟩ := ih
    refine ⟨'\n' :: x, ?_, ht.imp (congrArg _) (congrArg _)⟩
    show normalizeNewlines ('\r' :: '\n' :: (t ++ '\n' :: u)) = _
    rw [normalizeNewlines, hx, List.cons_append]
  | case3 c t hc ih =>
    obtain ⟨x, hx, ht⟩ := ih
    by_cases last : c = '\r' ∧ t = []
    · -- the carriage return and the line feed behind it are one
      obtain ⟨rfl, rfl⟩ := last
      refine ⟨[], ?_, .inr rfl⟩
      show normalizeNewlines ('\r' :: '\n' :: u) = _
      rw [normalizeNewlines, List.nil_append]
    · refine ⟨(if c = '\r' then '\n' else c) :: x, ?_, ht.imp (congrArg _) (congrArg _)⟩
      rw [List.cons_append, normalizeNewlines, hx, List.cons_append]
      rintro t' rfl ht'
      cases t with
      | nil => exact last ⟨rfl, rfl⟩
      | cons d t => exact hc t rfl ((List.cons.inj ht').1 ▸ rfl)

/-- The lines of a text that are not its first, whatever ends them. -/
def hidden (t : Text) : List Text :=
  t.normalizeNewlines.lines.tail

theorem hidden_of_not_mem {t : Text} (hn : '\n' ∉ t) (hr : '\r' ∉ t) : t.hidden = [] := by
  unfold hidden
  rw [normalizeNewlines_of_not_mem hr, lines_of_not_mem hn, List.tail_cons]

theorem not_mem_of_mem_hidden {t l : Text} (h : l ∈ t.hidden) : '\n' ∉ l ∧ '\r' ∉ l := by
  have line := List.mem_of_mem_tail h
  exact ⟨fun hn => (mem_of_mem_lines line hn).1 rfl,
    fun hr => not_mem_normalizeNewlines t (mem_of_mem_lines line hr).2⟩

/-- A line that begins with a comment marker is a comment line, and what is
    hidden in it comes below. -/
theorem exists_lines_mark (t : Text) :
    ∃ l, '\n' ∉ l ∧
      lines (normalizeNewlines ('#' :: t)) = ('#' :: l) :: hidden ('#' :: t) := by
  have mark : normalizeNewlines ('#' :: t) = '#' :: t.normalizeNewlines := by
    simp [normalizeNewlines]
  obtain ⟨l, hl⟩ := exists_lines_cons (c := '#') (by decide) t.normalizeNewlines
  refine ⟨l, fun hn => ?_, ?_⟩
  · exact (mem_of_mem_lines (hl ▸ List.mem_cons_self) (List.mem_cons_of_mem _ hn)).1 rfl
  · unfold hidden
    rw [mark, hl, List.tail_cons]

end Text

/-! ## The lines of a script -/

namespace Line

/-- The lines that are hidden in an annotation. -/
def hidden : Line → List Text
  | gap => []
  | title t => (title t).text.hidden
  | note t => (note t).text.hidden
  | define _ _ _ => []

/-- What a line makes live: a key and a value, as they are read. -/
def assigned : Line → List (Text × Text)
  | define key v false => [(Key.normalize key, Value.kept v)]
  | _ => []

/-- An annotation without line endings hides nothing. -/
theorem Clean.hidden {l : Line} (h : l.Clean) : l.hidden = [] := by
  have none := Text.hidden_of_not_mem (h.not_mem (.inl rfl)) (h.not_mem (.inr rfl))
  cases l with
  | gap => rfl
  | title t => exact none
  | note t => exact none
  | define key v disabled => rfl

/-- What is hidden in the line is inert, and its key can be read. -/
structure Discreet (l : Line) : Prop where
  inert : ∀ p ∈ l.hidden, Segment.Inert p
  legible : ∀ key v disabled, l = .define key v disabled → Key.Legible key

/-- A line that is discreet makes live what it assigns, and no more. -/
theorem Discreet.carries {l : Line} (h : l.Discreet) :
    Carries l.text.normalizeNewlines.lines l.assigned := by
  -- banners, comments and disabled assignments begin with a comment marker
  have annotation {t : Text} (inert : ∀ p ∈ Text.hidden ('#' :: t), Segment.Inert p) :
      Carries (Text.normalizeNewlines ('#' :: t)).lines [] := by
    obtain ⟨l, hl, lines⟩ := Text.exists_lines_mark t
    rw [lines]
    exact .inert (Segment.inert_mark hl) (.of_inert inert)
  cases l with
  | gap => exact .inert Segment.inert_nil .nil
  | title t => exact annotation h.inert
  | note t => exact annotation h.inert
  | define key v disabled =>
    have legible := h.legible key v disabled rfl
    have feed := Row.not_mem_assignmentLine legible v (.inl rfl)
    have ret := Row.not_mem_assignmentLine legible v (.inr rfl)
    cases disabled with
    | false =>
      show Carries (Row.assignmentLine key v false).normalizeNewlines.lines _
      rw [Text.normalizeNewlines_of_not_mem ret, Text.lines_of_not_mem feed]
      exact .live v legible .nil
    | true =>
      show Carries (Text.normalizeNewlines ('#' :: ' ' :: Row.assignmentLine key v false)).lines _
      refine annotation fun p hp => ?_
      rw [Text.hidden_of_not_mem (by simpa using feed) (by simpa using ret)] at hp
      cases hp

end Line

/-- The lines that are read for a script. -/
theorem Script.carries {ls : List Line} (h : ∀ l ∈ ls, l.Discreet) :
    Carries (Script.text ls).normalizeNewlines.lines (ls.flatMap Line.assigned) := by
  induction ls with
  | nil => exact .inert Segment.inert_nil .nil
  | cons l ls ih =>
    have hl := (h l List.mem_cons_self).carries
    have hls := ih fun m hm => h m (List.mem_cons_of_mem l hm)
    cases ls with
    | nil => simpa [Script.text] using hl
    | cons m ls =>
      have text : Script.text (l :: m :: ls) = l.text ++ '\n' :: Script.text (m :: ls) :=
        Text.joinLines_cons_cons _ _ _
      obtain ⟨x, hx, same | last⟩ := Text.normalizeNewlines_append l.text (Script.text (m :: ls))
      · rw [text, hx, Text.lines_append, List.flatMap_cons, ← same]
        exact hl.append hls
      · -- a carriage return at the end of the line belongs to the line ending
        rw [text, hx, Text.lines_append, List.flatMap_cons]
        rw [last, Text.lines_append] at hl
        exact (Carries.of_concat_nil hl).append hls

/-! ## Documents -/

variable {layout : Layout}

/-- The lines that are hidden in the annotations of a document. -/
def Document.hidden (d : Document) : List Text :=
  (d.script {}).flatMap Line.hidden

theorem Document.not_mem_of_mem_hidden {d : Document} {p : Text} (h : p ∈ d.hidden) :
    '\n' ∉ p ∧ '\r' ∉ p := by
  obtain ⟨l, -, hp⟩ := List.mem_flatMap.1 h
  cases l with
  | gap => cases hp
  | title t => exact Text.not_mem_of_mem_hidden hp
  | note t => exact Text.not_mem_of_mem_hidden hp
  | define key v disabled => cases hp

/-- A document whose annotations have no line endings hides nothing; line feeds
    in the comments of rows do not count. -/
theorem Document.Clean.hidden {d : Document} (h : d.Clean {}) : d.hidden = [] :=
  List.flatMap_eq_nil_iff.2 fun _ hl => (h.mem_script hl).hidden

/-- What a row makes live under its full key. -/
def Row.entry (key : Text) (r : Row) : List (Text × Text) :=
  if r.disabled then [] else [(key, r.value)]

theorem Document.entries_eq (d : Document) :
    d.entries = d.items.flatMap fun i => i.rows.flatMap fun r => r.entry (r.fullKey i.group) := by
  -- row by row, each alone in its list
  have live : d.entries = (d.rows.filter (!·.2.disabled)).map fun p => (p.1, p.2.value) := rfl
  have one (p : Text × Row) :
      (([p].filter (!·.2.disabled)).map fun p => (p.1, p.2.value)) = p.2.entry p.1 := by
    unfold Row.entry
    cases hp : p.2.disabled <;> simp [hp]
  rw [live]
  unfold rows
  rw [List.filter_flatMap, List.map_flatMap]
  refine List.flatMap_congr fun i _ => ?_
  induction i.rows with
  | nil => rfl
  | cons r rows ih =>
    rw [List.map_cons, ← List.singleton_append, List.filter_append, List.map_append, one, ih,
      List.flatMap_cons]

theorem Row.assigned_script (key : Text) (r : Row) :
    (r.script layout key).flatMap Line.assigned =
      (r.entry key).map fun e => (Key.normalize e.1, Value.kept e.2) := by
  have silent {ls : List Line} (h : ∀ l ∈ ls, l.assigned = []) : ls.flatMap Line.assigned = [] :=
    List.flatMap_eq_nil_iff.2 h
  unfold Row.script Row.entry
  -- of the lines of a row only the last can assign, and it does if the row is live
  split
  · rename_i hd
    rw [if_pos (by simpa using (Bool.and_eq_true_iff.1 hd).1)]
    rfl
  · have notes : ∀ l ∈ (if r.comment.isEmpty || layout.omitComments then []
        else r.comment.lines.map Line.note), l.assigned = [] := by
      intro l hl
      split at hl
      · cases hl
      · obtain ⟨t, -, rfl⟩ := List.mem_map.1 hl
        rfl
    have shadows : ∀ l ∈ (if r.disabled || layout.omitShadows then []
        else r.shadows.map fun v => Line.define key v true), l.assigned = [] := by
      intro l hl
      split at hl
      · cases hl
      · obtain ⟨v, -, rfl⟩ := List.mem_map.1 hl
        rfl
    rw [List.flatMap_append, List.flatMap_append, silent notes, silent shadows]
    cases r.disabled <;> rfl

theorem Item.assigned_script (i : Item) :
    (i.script layout).flatMap Line.assigned =
      (i.rows.flatMap fun r => r.entry (r.fullKey i.group)).map
        fun e => (Key.normalize e.1, Value.kept e.2) := by
  have rows (group : Text) (rows : List Row) :
      (scriptRows layout group rows).flatMap Line.assigned =
        (rows.flatMap fun r => r.entry (r.fullKey group)).map
          fun e => (Key.normalize e.1, Value.kept e.2) := by
    unfold scriptRows
    rw [List.flatMap_assoc, List.map_flatMap]
    exact List.flatMap_congr fun r _ => r.assigned_script _
  cases i with
  | row r => exact rows [] [r]
  | block b =>
    unfold Item.script
    rw [List.flatMap_append]
    refine Eq.trans ?_ (rows b.name b.rows)
    split <;> rfl

/-- The lines of a document assign its entries. -/
theorem Document.assigned_script (d : Document) :
    (d.script layout).flatMap Line.assigned =
      d.entries.map fun e => (Key.normalize e.1, Value.kept e.2) := by
  have gaps : (List.replicate layout.blankLines Line.gap).flatMap Line.assigned = [] :=
    List.flatMap_eq_nil_iff.2 fun l hl => List.eq_of_mem_replicate hl ▸ rfl
  unfold Document.script
  rw [flatMap_intercalate gaps, flatten_scripts, List.flatMap_assoc, entries_eq, List.map_flatMap]
  exact List.flatMap_congr fun i _ => i.assigned_script

/-- A document as the operations of the library make them, of rows whose full
    keys are not empty.  In a block a member may have no key of its own. -/
structure Document.Assembled (d : Document) : Prop where
  normal : d.Normal
  keys : ∀ i ∈ d.items, ∀ r ∈ i.rows, r.fullKey i.group ≠ []

instance (d : Document) : Decidable d.Assembled :=
  decidable_of_iff (d.Normal ∧ ∀ i ∈ d.items, ∀ r ∈ i.rows, r.fullKey i.group ≠ [])
    ⟨fun ⟨h₁, h₂⟩ => ⟨h₁, h₂⟩, fun ⟨h₁, h₂⟩ => ⟨h₁, h₂⟩⟩

namespace Document.Assembled

variable {d : Document}

/-- Full keys can be read, even those that normalising shortens. -/
theorem legible (h : d.Assembled) {i : Item} (hi : i ∈ d.items) {r : Row} (hr : r ∈ i.rows) :
    Key.Legible (r.fullKey i.group) := by
  have member : ∀ c ∈ r.key, Assignment.isKeyChar c = true := fun c hc =>
    Key.isKeyChar_of_mem_normalize ((h.normal i hi).2 r hr ▸ hc)
  have group : ∀ c ∈ i.group, Assignment.isKeyChar c = true := by
    cases i with
    | row r => exact fun c hc => absurd hc List.not_mem_nil
    | block b =>
      have name : Key.normalize b.name = b.name := (h.normal _ hi).1
      exact fun c (hc : c ∈ b.name) => Key.isKeyChar_of_mem_normalize (name.symm ▸ hc)
  refine ⟨h.keys i hi r hr, fun {c} hc => ?_⟩
  -- between group and member stands an underscore, unless there is no group
  unfold Row.fullKey at hc
  by_cases hg : i.group = []
  · rw [hg, Key.join_nil] at hc
    exact member c hc
  · rw [Key.join_of_ne_nil hg] at hc
    rcases List.mem_append.1 hc with hc | hc
    · exact group c hc
    · exact (List.mem_cons.1 hc).elim (fun e => e ▸ by decide) (member c)

theorem discreet (h : d.Assembled) (inert : ∀ p ∈ d.hidden, Segment.Inert p) :
    ∀ l ∈ d.script {}, l.Discreet := by
  intro l hl
  refine ⟨fun p hp => inert p (List.mem_flatMap.2 ⟨l, hl, hp⟩), ?_⟩
  rintro key v disabled rfl
  unfold Document.script at hl
  rcases mem_intercalate_gap hl with e | hl
  · cases e
  · rw [flatten_scripts] at hl
    obtain ⟨i, hi, hl⟩ := List.mem_flatMap.1 hl
    rcases Item.mem_script hl with ⟨-, b, -, e⟩ | ⟨r, hr, hl⟩
    · cases e
    · rcases Row.mem_script hl with ⟨-, t, -, e⟩ | ⟨v, disabled, e⟩
      · cases e
      · cases e
        exact h.legible hi hr

/-- **Inert lines in the annotations of a document do not matter.**  Reading
    its text succeeds, and the entries are those that were written, under
    their keys in normal form and with what is kept of their values. -/
theorem entries_reread (h : d.Assembled) (inert : ∀ p ∈ d.hidden, Segment.Inert p)
    (layout : Layout) :
    ∃ d', ofText layout (d.render {}) = .ok d' ∧ (d'.entries.map Prod.fst).Nodup ∧
      ∀ k v, (k, v) ∈ d'.entries ↔
        (d.entries.find? (Key.normalize ·.1 == k)).map (Value.kept ·.2) = some v := by
  have carries := Script.carries (h.discreet inert)
  rw [d.assigned_script, ← d.render_eq rfl (by decide)] at carries
  obtain ⟨s, hs, live⟩ := RowSet.ofText_carries carries layout
  refine ⟨s.arrange layout, ?_, s.nodup_entries_arrange layout, fun k v => ?_⟩
  · unfold ofText
    rw [hs]
    rfl
  · rw [s.mem_entries_arrange layout, ← RowSet.worth_eq_some_iff, live, List.find?_map,
      Option.map_map]
    rfl

end Document.Assembled

end EnvFile
