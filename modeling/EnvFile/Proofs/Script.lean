import EnvFile.Document.Render
import EnvFile.Proofs.Arrangement
import EnvFile.Proofs.Framing
import EnvFile.Reader

/-! # The script of a document

    The text of a document consists of lines of four kinds: blank lines
    between the items, banners, comment lines, and assignments, live or
    disabled.  The *script* of a document says which lines these are, so that
    reading the text again can be followed line by line.

    * `Document.render_eq`: the text of a document is the text of its script.
    * `Document.Clean`: what a document needs to hold for every line of its
      script to be a segment of its own (`Line.Clean.stands`). -/

namespace EnvFile

/-- A line that is written for a document. -/
inductive Line where
  | gap
  | title (title : Text)
  | note (text : Text)
  | define (key value : Text) (disabled : Bool)
deriving DecidableEq

namespace Line

/-- The text of a line. -/
def text : Line → Text
  | gap => []
  | title t => Banner.Template.render {} t
  | note t => '#' :: ' ' :: t
  | define key value disabled => Row.assignmentLine key value disabled

/-- The line is a segment of its own when it is read again. -/
def Clean : Line → Prop
  | gap => True
  | title t => '\n' ∉ t ∧ '\r' ∉ t
  | note t => '\n' ∉ t ∧ '\r' ∉ t
  | define key _ _ => Key.Canonical key

theorem text_title (t : Text) :
    (title t).text = "###   ---[ ".toList ++ t ++ " ]---   ###".toList := rfl

theorem text_ne_nil {l : Line} (h : l ≠ gap) : l.text ≠ [] := by
  cases l with
  | gap => exact absurd rfl h
  | title t => simp [text_title]
  | note t => simp [text]
  | define key value disabled => cases disabled <;> simp [text, Row.assignmentLine]

/-- A line that is clean has no line ending in it. -/
theorem Clean.not_mem {l : Line} (h : l.Clean) {c : Char} (hc : c = '\n' ∨ c = '\r') :
    c ∉ l.text := by
  have hmark : c ≠ '#' ∧ c ≠ ' ' := by rcases hc with rfl | rfl <;> decide
  have either {t : Text} (ht : '\n' ∉ t ∧ '\r' ∉ t) : c ∉ t := by
    rcases hc with rfl | rfl
    · exact ht.1
    · exact ht.2
  cases l with
  | gap => exact List.not_mem_nil
  | title t =>
    have ht : c ∉ t := either h
    have hb : c ∉ "###   ---[ ".toList := by rcases hc with rfl | rfl <;> decide
    have ha : c ∉ " ]---   ###".toList := by rcases hc with rfl | rfl <;> decide
    rw [text_title, List.mem_append, List.mem_append]
    exact not_or.2 ⟨not_or.2 ⟨hb, ht⟩, ha⟩
  | note t =>
    have ht : c ∉ t := either h
    simp [text, hmark, ht]
  | define key value disabled =>
    have hline : c ∉ Row.assignmentLine key value false :=
      Row.not_mem_assignmentLine (Key.Canonical.legible h) value hc
    cases disabled with
    | false => exact hline
    | true =>
      show c ∉ '#' :: ' ' :: Row.assignmentLine key value false
      simp [hmark, hline]

theorem Clean.stands {l : Line} (h : l.Clean) : Segment.Stands l.text := by
  have hline := h.not_mem (.inl rfl)
  cases l with
  | gap => exact Segment.stands_nil
  | title t => exact Segment.stands_mark fun hm => hline (List.mem_cons_of_mem _ hm)
  | note t => exact Segment.stands_mark fun hm => hline (List.mem_cons_of_mem _ hm)
  | define key value disabled =>
    cases disabled with
    | false => exact Segment.stands_assignmentLine (Key.Canonical.legible h) value
    | true => exact Segment.stands_mark fun hm => hline (List.mem_cons_of_mem _ hm)

end Line

/-- The text of lines. -/
def Script.text (ls : List Line) : Text :=
  Text.joinLines (ls.map Line.text)

/-! ## Scripts of rows, blocks and documents -/

variable (layout : Layout)

/-- The script of a row under its full key. -/
def Row.script (key : Text) (r : Row) : List Line :=
  if r.disabled && layout.omitDisabled then []
  else
    (if r.comment.isEmpty || layout.omitComments then [] else r.comment.lines.map .note) ++
    (if r.disabled || layout.omitShadows then []
      else r.shadows.map fun v => .define key v true) ++
    [.define key r.value r.disabled]

/-- The script of the rows of a group, each under its full key. -/
def Item.scriptRows (group : Text) (rows : List Row) : List Line :=
  rows.flatMap fun r => r.script layout (r.fullKey group)

/-- The script of an item. -/
def Item.script : Item → List Line
  | .row r => scriptRows layout [] [r]
  | .block b =>
    (if b.rows.isEmpty || b.comment.isEmpty || layout.omitComments then []
      else [.title b.comment]) ++ scriptRows layout b.name b.rows

/-- The script of a document. -/
def Document.script (d : Document) : List Line :=
  List.intercalate (List.replicate layout.blankLines .gap)
    ((d.items.map (Item.script layout)).filter fun ls => !ls.isEmpty)

variable {layout}

theorem Row.lines_eq (r : Row) (group : Text) :
    r.lines group layout = (r.script layout (r.fullKey group)).map Line.text := by
  unfold Row.lines Row.script Row.commentLines Row.shadowLines
  by_cases hd : (r.disabled && layout.omitDisabled) = true
  · simp [hd]
  · rw [if_neg hd, if_neg hd, List.map_append, List.map_append]
    congr 2
    · split
      · rfl
      · rw [List.map_map]
        rfl
    · split
      · rfl
      · rw [List.map_map]
        rfl

theorem Item.map_text_scriptRows (group : Text) (rows : List Row) :
    (scriptRows layout group rows).map Line.text =
      rows.flatMap fun r => r.lines group layout := by
  unfold scriptRows
  rw [List.map_flatMap]
  simp only [Row.lines_eq]

theorem Item.lines_eq (hb : layout.banner = {}) (i : Item) :
    i.lines layout = (i.script layout).map Line.text := by
  cases i with
  | row r =>
    show r.lines [] layout = (scriptRows layout [] [r]).map Line.text
    rw [map_text_scriptRows]
    simp
  | block b =>
    show b.lines layout = _
    unfold Item.script Block.lines
    rw [List.map_append, map_text_scriptRows, hb]
    by_cases hrows : b.rows.isEmpty = true
    · simp [List.isEmpty_iff.1 hrows]
    · rw [if_neg hrows]
      by_cases ht : (b.comment.isEmpty || layout.omitComments) = true
      · simp [hrows, ht]
      · simp [hrows, ht]
        rfl

/-! ## The text of a script -/

/-- The lines of a row are its comment, where comments are written, and
    assignments of its key. -/
theorem Row.mem_script {k : Text} {r : Row} {l : Line} (h : l ∈ r.script layout k) :
    (layout.omitComments = false ∧ ∃ t ∈ r.comment.lines, l = .note t) ∨
      ∃ v disabled, l = .define k v disabled := by
  unfold Row.script at h
  split at h
  · cases h
  · rw [List.mem_append, List.mem_append] at h
    rcases h with (h | h) | h
    · split at h
      · cases h
      · rename_i hc
        have homit : layout.omitComments = false := by
          simp only [Bool.or_eq_true, not_or, Bool.not_eq_true] at hc
          exact hc.2
        obtain ⟨t, ht, rfl⟩ := List.mem_map.1 h
        exact .inl ⟨homit, t, ht, rfl⟩
    · split at h
      · cases h
      · obtain ⟨v, -, rfl⟩ := List.mem_map.1 h
        exact .inr ⟨v, true, rfl⟩
    · exact .inr ⟨r.value, r.disabled, List.mem_singleton.1 h⟩

/-- The lines of an item are its banner, where comments are written, and those
    of its rows. -/
theorem Item.mem_script {i : Item} {l : Line} (h : l ∈ i.script layout) :
    (layout.omitComments = false ∧ ∃ b, i = .block b ∧ l = .title b.comment) ∨
      ∃ r ∈ i.rows, l ∈ r.script layout (r.fullKey i.group) := by
  cases i with
  | row r => exact .inr (List.mem_flatMap.1 h)
  | block b =>
    unfold Item.script at h
    rw [List.mem_append] at h
    rcases h with h | h
    · split at h
      · cases h
      · rename_i hc
        have homit : layout.omitComments = false := by
          simp only [Bool.or_eq_true, not_or, Bool.not_eq_true] at hc
          exact hc.2
        exact .inl ⟨homit, b, rfl, List.mem_singleton.1 h⟩
    · exact .inr (List.mem_flatMap.1 h)

theorem gap_not_mem_script (i : Item) : Line.gap ∉ i.script layout := by
  intro h
  rcases Item.mem_script h with ⟨-, b, -, hl⟩ | ⟨r, -, hr⟩
  · cases hl
  · rcases Row.mem_script hr with ⟨-, t, -, hl⟩ | ⟨v, disabled, hl⟩
    · cases hl
    · cases hl

theorem Item.render_eq (hb : layout.banner = {}) (i : Item) :
    i.render layout = Script.text (i.script layout) := by
  unfold Item.render Script.text
  rw [Item.lines_eq hb]

theorem Script.text_isEmpty {ls : List Line} (h : Line.gap ∉ ls) :
    (Script.text ls).isEmpty = ls.isEmpty := by
  cases ls with
  | nil => rfl
  | cons l ls =>
    have hne : Script.text (l :: ls) ≠ [] := by
      refine Text.joinLines_ne_nil (fun t ht => ?_) (by simp)
      obtain ⟨m, hm, rfl⟩ := List.mem_map.1 ht
      exact Line.text_ne_nil fun e => h (e ▸ hm)
    simpa using hne

theorem joinLines_blank {ls : List Text} (ne : ls ≠ []) (n : Nat) :
    Text.joinLines (List.replicate n [] ++ ls) = List.replicate n '\n' ++ Text.joinLines ls := by
  induction n with
  | zero => rfl
  | succ n ih =>
    have hne : List.replicate n [] ++ ls ≠ [] := by simp [ne]
    rw [List.replicate_succ, List.cons_append, List.replicate_succ, List.cons_append, ← ih]
    exact Segment.joinLines_append (show [([] : Text)] ≠ [] by simp) hne

/-- Blank lines between groups of lines are line feeds between their texts. -/
theorem joinLines_intercalate {lss : List (List Text)} (h : ∀ ls ∈ lss, ls ≠ []) (n : Nat) :
    Text.joinLines (List.intercalate (List.replicate n []) lss) =
      List.intercalate (List.replicate (n + 1) '\n') (lss.map Text.joinLines) := by
  induction lss with
  | nil => rfl
  | cons ls lss ih =>
    have hls := h ls List.mem_cons_self
    have htail := ih fun m hm => h m (List.mem_cons_of_mem ls hm)
    cases lss with
    | nil => simp
    | cons ms lss =>
      have hms := h ms (by simp)
      have hne : List.intercalate (List.replicate n []) (ms :: lss) ≠ [] := by
        intro hnil
        cases lss with
        | nil => exact hms (by simpa using hnil)
        | cons k lss =>
          rw [List.intercalate_cons_cons] at hnil
          exact hms (List.append_eq_nil_iff.1 (List.append_eq_nil_iff.1 hnil).1).1
      rw [List.map_cons, List.map_cons, List.intercalate_cons_cons, List.intercalate_cons_cons,
        ← List.map_cons, ← htail, List.append_assoc,
        Segment.joinLines_append hls (by simp [hne]), joinLines_blank hne, List.replicate_succ]
      simp

theorem map_text_intercalate (n : Nat) (lss : List (List Line)) :
    (List.intercalate (List.replicate n .gap) lss).map Line.text =
      List.intercalate (List.replicate n []) (lss.map (List.map Line.text)) := by
  induction lss with
  | nil => rfl
  | cons ls lss ih =>
    cases lss with
    | nil => simp
    | cons ms lss =>
      rw [List.intercalate_cons_cons, List.map_cons, List.map_cons, List.intercalate_cons_cons,
        ← List.map_cons, ← ih]
      simp [Line.text]

/-- **The text of a document is the text of its script.** -/
theorem Document.render_eq (hb : layout.banner = {}) (few : layout.Separable) (d : Document) :
    d.render layout = Script.text (d.script layout) := by
  have hscripts : (d.items.map (Item.render layout)).filter (fun t => !t.isEmpty) =
      ((d.items.map (Item.script layout)).filter fun ls => !ls.isEmpty).map Script.text := by
    rw [List.map_congr_left fun i _ => Item.render_eq hb i, List.filter_map, List.filter_map,
      List.map_map]
    congr 1
    refine List.filter_congr fun i _ => ?_
    show (!(Script.text (i.script layout)).isEmpty) = !(i.script layout).isEmpty
    rw [Script.text_isEmpty (gap_not_mem_script i)]
  -- items without lines drop out on both sides
  unfold Document.render Document.script
  rw [hscripts]
  generalize hs : (d.items.map (Item.script layout)).filter (fun ls => !ls.isEmpty) = lss
  have hne : ∀ ts ∈ lss.map (List.map Line.text), ts ≠ [] := by
    intro ts hts
    obtain ⟨ls, hls, rfl⟩ := List.mem_map.1 hts
    rw [← hs] at hls
    simpa using (List.mem_filter.1 hls).2
  unfold Script.text Layout.separator
  rw [few.feeds_eq, map_text_intercalate, joinLines_intercalate hne, List.map_map]
  rfl

/-! ## Clean documents -/

/-- What a document needs to hold for its lines to be read again one by one.
    Where annotations are left out, theirs do not matter. -/
structure Document.Clean (layout : Layout) (d : Document) : Prop where
  keys : ∀ r ∈ d.flat, Key.Canonical r.key
  comments : layout.omitComments = false → ∀ r ∈ d.flat, '\r' ∉ r.comment
  titles : layout.omitComments = false → ∀ b, Item.block b ∈ d.items →
    '\n' ∉ b.comment ∧ '\r' ∉ b.comment

theorem Row.clean_script {k : Text} {r : Row} (key : Key.Canonical k)
    (comment : layout.omitComments = false → '\r' ∉ r.comment) :
    ∀ l ∈ r.script layout k, l.Clean := by
  intro l hl
  rcases Row.mem_script hl with ⟨homit, t, ht, rfl⟩ | ⟨v, disabled, rfl⟩
  · exact ⟨fun hn => (Text.mem_of_mem_lines ht hn).1 rfl,
      fun hr => comment homit (Text.mem_of_mem_lines ht hr).2⟩
  · exact key

theorem mem_flat_of_mem_items {d : Document} {i : Item} (hi : i ∈ d.items) {r : Row}
    (hr : r ∈ i.rows) : r.atFullKey i.group ∈ d.flat := by
  rw [Document.flat_eq]
  exact List.mem_flatMap.2 ⟨i, hi, List.mem_map_of_mem hr⟩

theorem Document.Clean.script {d : Document} (h : d.Clean layout) {i : Item} (hi : i ∈ d.items) :
    ∀ l ∈ i.script layout, l.Clean := by
  intro l hl
  rcases Item.mem_script hl with ⟨homit, b, rfl, rfl⟩ | ⟨r, hr, hl⟩
  · exact h.titles homit b hi
  · have hmem := mem_flat_of_mem_items hi hr
    exact Row.clean_script (h.keys _ hmem) (fun homit => h.comments homit _ hmem) l hl

/-! ## Gaps -/

theorem mem_intercalate_gap {n : Nat} {lss : List (List Line)} {l : Line}
    (h : l ∈ List.intercalate (List.replicate n .gap) lss) : l = .gap ∨ l ∈ lss.flatten := by
  induction lss with
  | nil => cases h
  | cons ls lss ih =>
    cases lss with
    | nil => exact .inr (by simpa using h)
    | cons ms lss =>
      rw [List.intercalate_cons_cons, List.mem_append, List.mem_append] at h
      rw [List.flatten_cons, List.mem_append]
      rcases h with (h | h) | h
      · exact .inr (.inl h)
      · exact .inl (List.eq_of_mem_replicate h)
      · exact (ih h).imp_right .inr

theorem getLast?_intercalate {sep : List Line} {lss : List (List Line)}
    (h : ∀ ls ∈ lss, ls ≠ []) :
    (List.intercalate sep lss).getLast? = lss.flatten.getLast? := by
  induction lss with
  | nil => rfl
  | cons ls lss ih =>
    have htail := ih fun m hm => h m (List.mem_cons_of_mem ls hm)
    cases lss with
    | nil => simp
    | cons ms lss =>
      have hms := h ms (by simp)
      have hne : (ms :: lss).flatten.getLast? ≠ none := by simp [hms]
      obtain ⟨l, hlast⟩ := Option.ne_none_iff_exists'.1 hne
      have hright : (ls ++ (ms :: lss).flatten).getLast? = some l := by
        rw [List.getLast?_append, hlast]
        rfl
      rw [List.intercalate_cons_cons, List.getLast?_append, htail, hlast]
      exact hright.symm

/-- The items of a script, without the gaps between them. -/
theorem flatten_scripts (d : Document) :
    ((d.items.map (Item.script layout)).filter fun ls => !ls.isEmpty).flatten =
      d.items.flatMap (Item.script layout) := by
  rw [List.flatMap_def]
  exact List.flatten_filter_not_isEmpty

theorem Document.Clean.mem_script {d : Document} (h : d.Clean layout) {l : Line}
    (hl : l ∈ d.script layout) : l.Clean := by
  unfold Document.script at hl
  rcases mem_intercalate_gap hl with rfl | hl
  · trivial
  · rw [flatten_scripts] at hl
    obtain ⟨i, hi, hl⟩ := List.mem_flatMap.1 hl
    exact h.script hi l hl

/-- The last line of a document is not blank. -/
theorem getLast?_script (d : Document) :
    ((d.script layout).map Line.text).getLast? ≠ some [] := by
  have hne : ∀ ls ∈ (d.items.map (Item.script layout)).filter (fun ls => !ls.isEmpty), ls ≠ [] := by
    intro ls hls
    simpa using (List.mem_filter.1 hls).2
  unfold Document.script
  rw [List.getLast?_map, getLast?_intercalate hne, flatten_scripts]
  intro hlast
  obtain ⟨l, hl, htext⟩ := Option.map_eq_some_iff.1 hlast
  obtain ⟨i, -, hi⟩ := List.mem_flatMap.1 (List.mem_of_mem_getLast? hl)
  have hgap : l ≠ .gap := fun e => gap_not_mem_script i (e ▸ hi)
  exact Line.text_ne_nil hgap htext

end EnvFile
