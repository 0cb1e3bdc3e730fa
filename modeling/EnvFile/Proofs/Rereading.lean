import EnvFile.Proofs.Collision
import EnvFile.Proofs.Script
import EnvFile.Proofs.Titles

/-! # Reading a script again

    A reader goes through the text of a script line by line.  A line either
    brings a row, or it changes what waits for the next row: comment lines and
    a banner (`Reader.take`).  So the rows that a script comes to are those of
    its *readings*, the rows that its lines bring in order.

    * `feed_line`: reading the text of a line is taking the line.
    * `Fed`: all that reading a segment can do; `feedAll_keeps`: what every
      segment keeps is kept by a run.
    * `Document.Clean.reread`: reading the text of a document is taking the
      scripts of its items.
    * `Reflects.takeAll`: the rows afterwards are what the readings come to. -/

namespace EnvFile

/-! ## What a line brings -/

namespace Line

/-- The row that a line brings below waiting comment lines. -/
def row? (notes : List Text) : Line → Option Row
  | gap => none
  | title _ => none
  | note t =>
    match Statement.read? t with
    | some (.assignment a) =>
      some
        { key := Key.normalize a.key, value := a.value,
          comment := Text.joinNonempty [Statement.commentText notes, a.comment], disabled := true }
    | _ => none
  | define key value disabled =>
    some
      { key, value := Value.read (Value.write value),
        comment := Statement.commentText notes, disabled }

/-- The comment lines that wait behind a line that brings no row. -/
def pending (notes : List Text) : Line → List Text
  | note t =>
    if Statement.read? t = some .blank ∨ Statement.stripMarkers t = [] then notes
    else notes ++ [Text.trim ('#' :: ' ' :: t)]
  | _ => notes

/-- The banner that waits behind a line that brings no row. -/
def banner (waiting : Option Text) : Line → Option Text
  | title t => some t.trim
  | _ => waiting

theorem shadows_of_row? {notes : List Text} {l : Line} {r : Row} (h : l.row? notes = some r) :
    r.shadows = [] := by
  cases l with
  | gap => cases h
  | title t => cases h
  | note t =>
    simp only [row?] at h
    split at h
    · cases h
      rfl
    · cases h
  | define key value disabled =>
    cases h
    rfl

end Line

/-- The rows that lines bring, in order. -/
def readings (notes : List Text) : List Line → List Row
  | [] => []
  | l :: ls =>
    match l.row? notes with
    | some r => r :: readings [] ls
    | none => readings (l.pending notes) ls

/-- The comment lines that wait behind lines. -/
def waiting (notes : List Text) : List Line → List Text
  | [] => notes
  | l :: ls =>
    match l.row? notes with
    | some _ => waiting [] ls
    | none => waiting (l.pending notes) ls

theorem readings_of_row? {notes : List Text} {l : Line} {r : Row} (h : l.row? notes = some r)
    (ls : List Line) :
    readings notes (l :: ls) = r :: readings [] ls ∧
      waiting notes (l :: ls) = waiting [] ls := by
  simp [readings, waiting, h]

theorem readings_of_waits {notes : List Text} {l : Line} (h : l.row? notes = none)
    (ls : List Line) :
    readings notes (l :: ls) = readings (l.pending notes) ls ∧
      waiting notes (l :: ls) = waiting (l.pending notes) ls := by
  simp [readings, waiting, h]

namespace Reader

/-- Take in a row below what waits for it. -/
def receive (s : Reader) (r : Row) : Reader :=
  ({ s with comments := [] }.placeBanner r.key).insert r

/-- Take a line. -/
def take (s : Reader) (l : Line) : Reader :=
  match l.row? s.comments with
  | some r => s.receive r
  | none => { s with comments := l.pending s.comments, banner := l.banner s.banner }

theorem take_of_row? {s : Reader} {l : Line} {r : Row} (h : l.row? s.comments = some r) :
    s.take l = s.receive r := by
  unfold take
  rw [h]

theorem take_of_waits {s : Reader} {l : Line} (h : l.row? s.comments = none) :
    s.take l = { s with comments := l.pending s.comments, banner := l.banner s.banner } := by
  unfold take
  rw [h]

/-- Take lines in order. -/
def takeAll (s : Reader) (ls : List Line) : Reader :=
  ls.foldl take s

/-! ## Reading a banner -/

theorem trim_title (t : Text) : (Line.title t).text.trim = (Line.title t).text := by
  apply Text.strip_eq_self_iff.2
  rw [Line.text_title]
  constructor
  · intro c hc
    cases hc
    decide
  · intro c hc
    rw [List.getLast?_append] at hc
    cases hc
    decide

/-! ## Reading a comment line -/

/-- A comment line keeps its marker, and blanks at its end go. -/
theorem trim_note (t : Text) :
    ∃ u : Text, Text.trim ('#' :: ' ' :: t) = '#' :: u ∧ (u = [] ∨ ∃ w, u = ' ' :: w) ∧
      u.trim = t.trim ∧ ∀ c ∈ u, c = ' ' ∨ c ∈ t := by
  refine ⟨Text.trimRight isBlank (' ' :: t), Text.strip_cons (by decide) _, ?_, ?_, ?_⟩
  · have hpre := Text.trimRight_prefix isBlank (' ' :: t)
    rcases List.prefix_cons_iff.1 hpre with h | ⟨w, h, -⟩
    · exact .inl h
    · exact .inr ⟨w, h⟩
  · unfold Text.trim
    rw [Text.strip_trimRight]
    have hspace : ∀ c ∈ [' '], isBlank c = true := List.all_eq_true.1 rfl
    exact Text.strip_append_left hspace t
  · intro c hc
    simpa using (Text.trimRight_prefix isBlank (' ' :: t)).subset hc

/-- A written comment line is no banner. -/
theorem title?_note {u : Text} (h : u = [] ∨ ∃ w, u = ' ' :: w)
    (htrim : Text.trim ('#' :: u) = '#' :: u) :
    Banner.Template.title? {} ('#' :: u) = none := by
  unfold Banner.Template.title?
  rw [htrim]
  have hb : Text.trim "###   ---[ ".toList = '#' :: '#' :: "#   ---[".toList := by decide
  show (Text.after? (Text.trim "###   ---[ ".toList) _).bind _ = none
  rw [hb]
  rcases h with rfl | ⟨w, rfl⟩ <;> rfl

theorem stripMarkers_note (t : Text) :
    Statement.stripMarkers ('#' :: ' ' :: t) = Statement.stripMarkers t := by
  have hmarks : ∀ c ∈ ['#', ' '], (c == '#' || isBlank c) = true := List.all_eq_true.1 rfl
  exact Text.strip_append_left hmarks t

/-- A comment line that holds no assignment waits, unless it has no text. -/
theorem take_note {t u : Text} (hu : Text.trim ('#' :: ' ' :: t) = '#' :: u) {s : Reader}
    (h : (Line.note t).row? s.comments = none) :
    s.take (.note t) =
      if Statement.read? t = some .blank ∨ Statement.stripMarkers t = [] then s
      else { s with comments := s.comments ++ ['#' :: u] } := by
  rw [take_of_waits h]
  simp only [Line.pending, Line.banner, hu]
  split <;> rfl

/-- Reading a comment line. -/
theorem feed_note {layout : Layout} (hb : layout.banner = {}) {t : Text} (ht : '\n' ∉ t)
    (s : Reader) (n : Nat) :
    s.feed layout ⟨n, '#' :: ' ' :: t⟩ = .ok (s.take (.note t)) := by
  obtain ⟨u, hu, hspace, hut, hmem⟩ := trim_note t
  have htrim : Text.trim ('#' :: u) = '#' :: u := by
    rw [← hu]
    exact Text.trim_trim _
  have hun : '\n' ∉ u := by
    intro hn
    rcases hmem _ hn with h | h
    · exact absurd h (by decide)
    · exact ht h
  have hdrop : ('#' :: u).dropWhile (· == '#') = u := by
    rcases hspace with rfl | ⟨w, rfl⟩ <;> rfl
  have hread : Statement.read? u = Statement.read? t := Statement.read?_congr hun ht hut
  have hmarks : Statement.stripMarkers ('#' :: u) = Statement.stripMarkers t := by
    rw [← hu, Statement.stripMarkers_trim, stripMarkers_note]
  unfold feed
  rw [show (⟨n, '#' :: ' ' :: t⟩ : Segment).text.trim = '#' :: u from hu]
  show Except.ok (s.readComment layout ('#' :: u)) = _
  congr 1
  unfold readComment
  rw [hb, title?_note hspace htrim, hdrop, hread, hmarks]
  -- an assignment brings a row; anything else waits, unless it has no text
  cases hs : Statement.read? t with
  | none =>
    rw [take_note hu (by simp [Line.row?, hs]), hs]
    simp
  | some st =>
    cases st with
    | assignment a =>
      have hrow : (Line.note t).row? s.comments = some
          { key := Key.normalize a.key, value := a.value,
            comment := Text.joinNonempty [Statement.commentText s.comments, a.comment],
            disabled := true } := by
        simp [Line.row?, hs]
      rw [take_of_row? hrow]
      rfl
    | _ =>
      rw [take_note hu (by simp [Line.row?, hs]), hs]
      simp

/-! ## Reading an assignment -/

/-- A disabled assignment is a comment line that holds an assignment. -/
theorem take_disabled {key : Text} (h : Key.Canonical key) (v : Text) (s : Reader) :
    s.take (.note (Row.assignmentLine key v false)) = s.take (.define key v true) := by
  have hjoin : Text.joinNonempty [Statement.commentText s.comments, []] =
      Statement.commentText s.comments :=
    (Text.joinNonempty_concat_nil [_]).trans (Text.joinNonempty_singleton _)
  -- behind its marker the line reads as the assignment of `key`
  have hrow : (Line.note (Row.assignmentLine key v false)).row? s.comments =
      (Line.define key v true).row? s.comments := by
    simp [Line.row?, Statement.read?_written h.legible, h.normal, hjoin]
  rw [take_of_row? (l := .define key v true) rfl, take_of_row? (hrow.trans rfl)]

/-- An assignment is taken as one of the key that its own stands for. -/
theorem feed_define {layout : Layout} {key : Text} (h : Key.Legible key) (v : Text) {s : Reader}
    (hnotes : ∀ l ∈ s.comments, Statement.IsNote l) (n : Nat) :
    s.feed layout ⟨n, Row.assignmentLine key v false⟩ =
      .ok (s.take (.define (Key.normalize key) v false)) := by
  obtain ⟨c, t, hct, hkey⟩ := Row.exists_assignmentLine h v
  have hmark : c ≠ '#' := ne_of_class hkey (by decide)
  have hread := Statement.read?_below h v hnotes
  -- the key opens the line, so it is no comment line
  have hfeed : s.feed layout ⟨n, Row.assignmentLine key v false⟩ =
      s.readStatement n (Row.assignmentLine key v false) := by
    unfold feed
    rw [show (⟨n, Row.assignmentLine key v false⟩ : Segment).text.trim = c :: t from
      (Row.trim_assignmentLine h v).trans hct]
    split
    · rename_i hnil
      cases hnil
    · rename_i u hu
      exact absurd (List.cons.inj hu).1 hmark
    · rw [hct]
  rw [hfeed]
  unfold readStatement
  rw [hread]
  rfl

/-- Reading a banner. -/
theorem feed_title {layout : Layout} (hb : layout.banner = {}) (t : Text) (s : Reader) (n : Nat) :
    s.feed layout ⟨n, (Line.title t).text⟩ = .ok (s.take (.title t)) := by
  obtain ⟨u, hu⟩ : ∃ u, (Line.title t).text = '#' :: u := ⟨_, rfl⟩
  have htitle : Banner.Template.title? {} (Line.title t).text = some t.trim :=
    Banner.Template.title?_render {} t
  have htrim := trim_title t
  rw [hu] at htitle htrim
  unfold feed
  rw [hu, show (⟨n, '#' :: u⟩ : Segment).text.trim = '#' :: u from htrim]
  show Except.ok (s.readComment layout ('#' :: u)) = _
  unfold readComment
  rw [hb, htitle]
  rfl

/-- **Reading the text of a line is taking the line.** -/
theorem feed_line {layout : Layout} (hb : layout.banner = {}) {l : Line} (hl : l.Clean)
    {s : Reader} (hnotes : ∀ n ∈ s.comments, Statement.IsNote n) (n : Nat) :
    s.feed layout ⟨n, l.text⟩ = .ok (s.take l) := by
  cases l with
  | gap => rfl
  | title t => exact feed_title hb t s n
  | note t => exact feed_note hb hl.1 s n
  | define key value disabled =>
    cases disabled with
    | false =>
      have hl : Key.Canonical key := hl
      refine (feed_define hl.legible value hnotes n).trans ?_
      rw [hl.normal]
    | true =>
      rw [← take_disabled hl]
      exact feed_note hb (Row.not_mem_assignmentLine (Key.Canonical.legible hl) value (.inl rfl)) s n

/-! ## What reading a segment can do -/

/-- The reader `s` after a segment whose trimmed text is `t`. -/
inductive Fed (layout : Layout) (s : Reader) (t : Text) : Reader → Prop where
  | blank (empty : t = []) : Fed layout s t s
  | banner {title : Text} (mark : t.head? = some '#')
      (banner : layout.banner.title? t = some title) :
      Fed layout s t { s with banner := some title }
  | disabled {a : Assignment} (mark : t.head? = some '#')
      (untitled : layout.banner.title? t = none)
      (reads : Statement.read? (t.dropWhile (· == '#')) = some (.assignment a)) :
      Fed layout s t
        (s.receive (((Row.ofPair a.key a.value).setComment
          (Text.joinNonempty [Statement.commentText s.comments, a.comment])).setDisabled true))
  | note (mark : t.head? = some '#') (untitled : layout.banner.title? t = none)
      (idle : ∀ a, Statement.read? (t.dropWhile (· == '#')) ≠ some (.assignment a)) :
      Fed layout s t { s with comments := s.comments ++ [t] }
  | skipped (mark : t.head? = some '#') : Fed layout s t s
  | live {a : Assignment} (nonempty : t ≠ []) (unmarked : t.head? ≠ some '#')
      (reads : Statement.read? (Text.joinLines (s.comments ++ [t])) = some (.assignment a)) :
      Fed layout s t (s.receive ((Row.ofPair a.key a.value).setComment a.comment))
  | idle (nonempty : t ≠ []) (unmarked : t.head? ≠ some '#')
      (reads : Statement.read? (Text.joinLines (s.comments ++ [t])) ≠ none)
      (idle : ∀ a, Statement.read? (Text.joinLines (s.comments ++ [t])) ≠ some (.assignment a)) :
      Fed layout s t { s with comments := [] }

theorem fed_readComment (layout : Layout) (s : Reader) (u : Text) :
    Fed layout s ('#' :: u) (s.readComment layout ('#' :: u)) := by
  unfold readComment
  split
  · rename_i title banner
    exact .banner rfl banner
  · rename_i untitled
    split
    · rename_i a reads
      exact .disabled rfl untitled reads
    · exact .skipped rfl
    · rename_i reads _
      split
      · exact .skipped rfl
      · exact .note rfl untitled reads

/-- A segment that is no malformed statement is read in one of these ways. -/
theorem fed_of_feed {layout : Layout} {s s' : Reader} {g : Segment}
    (h : s.feed layout g = .ok s') : Fed layout s g.text.trim s' := by
  unfold feed at h
  split at h
  · rename_i empty
    cases h
    exact .blank empty
  · rename_i u mark
    cases h
    rw [mark]
    exact fed_readComment layout s u
  · rename_i nonempty mark
    have unmarked : g.text.trim.head? ≠ some '#' := by
      intro hm
      obtain ⟨u, hu⟩ := List.head?_eq_some_iff.1 hm
      exact mark u hu
    unfold readStatement at h
    split at h
    · cases h
    · rename_i a reads
      cases h
      exact .live nonempty unmarked reads
    · rename_i st idle reads
      cases h
      exact .idle nonempty unmarked (by simp [reads])
        fun a ha => idle a (Option.some.inj (reads.symm.trans ha))

theorem feedAll_of_feed {layout : Layout} {s s' : Reader} {g : Segment}
    (h : s.feed layout g = .ok s') (gs : List Segment) :
    s.feedAll layout (g :: gs) = s'.feedAll layout gs := by
  rw [feedAll, h]

theorem feedAll_append (s : Reader) (layout : Layout) (gs hs : List Segment) :
    s.feedAll layout (gs ++ hs) = (s.feedAll layout gs).bind fun t => t.feedAll layout hs := by
  induction gs generalizing s with
  | nil => rfl
  | cons g gs ih =>
    rw [List.cons_append, feedAll, feedAll]
    cases s.feed layout g with
    | error e => rfl
    | ok t => exact ih t

/-- What every segment keeps is kept by a run over segments. -/
theorem feedAll_keeps {layout : Layout} {P : Reader → Prop} {gs : List Segment}
    (step : ∀ g ∈ gs, ∀ {s s' : Reader}, P s → s.feed layout g = .ok s' → P s') {s s' : Reader}
    (start : P s) (h : s.feedAll layout gs = .ok s') : P s' := by
  induction gs generalizing s with
  | nil =>
    cases h
    exact start
  | cons g gs ih =>
    unfold feedAll at h
    split at h
    · rename_i m hm
      have first := step g List.mem_cons_self start hm
      exact ih (fun f hf => step f (List.mem_cons_of_mem g hf)) first h
    · cases h

/-! ## What taking a line changes -/

/-- A row changes nothing but rows and their history. -/
theorem insert_context (s : Reader) (r : Row) :
    (s.insert r).comments = s.comments ∧ (s.insert r).banner = s.banner ∧
      (s.insert r).rows.banners = s.rows.banners := by
  rcases s.insert_cases r with hi | ⟨m, hi, -, -⟩
  · rw [hi]
    unfold noteHistory
    split <;> exact ⟨rfl, rfl, rfl⟩
  · rw [hi]
    exact ⟨rfl, rfl, rfl⟩

@[simp] theorem placeBanner_frame (s : Reader) (key : Text) :
    (s.placeBanner key).rows.rows = s.rows.rows ∧ (s.placeBanner key).history = s.history ∧
      (s.placeBanner key).comments = s.comments ∧ (s.placeBanner key).banner = none := by
  unfold placeBanner
  split
  · rename_i h
    exact ⟨rfl, rfl, rfl, h⟩
  · exact ⟨rfl, rfl, rfl, rfl⟩

/-- Nothing waits any more when a row is taken in. -/
theorem receive_context (s : Reader) (r : Row) :
    (s.receive r).comments = [] ∧ (s.receive r).banner = none ∧
      (s.receive r).rows.banners = (s.placeBanner r.key).rows.banners := by
  unfold receive
  obtain ⟨hc, hb, hd⟩ := ({ s with comments := [] }.placeBanner r.key).insert_context r
  obtain ⟨-, -, hcomments, hbanner⟩ := ({ s with comments := [] } : Reader).placeBanner_frame r.key
  refine ⟨hc.trans hcomments, hb.trans hbanner, hd.trans ?_⟩
  unfold placeBanner
  cases s.banner <;> rfl

theorem Reflects.receive {s : Reader} {rows : List Row} (h : s.Reflects rows) {r : Row}
    (fresh : r.shadows = []) : (s.receive r).Reflects (rows ++ [r]) := by
  obtain ⟨hrows, hhistory, -, -⟩ := ({ s with comments := [] } : Reader).placeBanner_frame r.key
  have before : ({ s with comments := [] }.placeBanner r.key).Reflects rows :=
    h.congr hrows hhistory
  exact before.insert fresh

/-- The comment lines that wait are comment lines. -/
theorem isNote_take {s : Reader} (h : ∀ n ∈ s.comments, Statement.IsNote n) {l : Line}
    (hl : l.Clean) : ∀ n ∈ (s.take l).comments, Statement.IsNote n := by
  cases hrow : l.row? s.comments with
  | some r =>
    rw [take_of_row? hrow, (s.receive_context r).1]
    simp
  | none =>
    rw [take_of_waits hrow]
    show ∀ n ∈ l.pending s.comments, _
    cases l with
    | gap => exact h
    | title t => exact h
    | define key value disabled => exact h
    | note t =>
      simp only [Line.pending]
      split
      · exact h
      · obtain ⟨u, hu, -⟩ := trim_note t
        refine Statement.isNote_concat h (by rw [hu, List.head?_cons]) fun hn => ?_
        have := Text.mem_of_mem_strip hn
        simp [hl.1] at this

/-! ## Reading a script -/

variable {layout : Layout}

theorem feedAll_lines (hb : layout.banner = {}) {ls : List Line} (hls : ∀ l ∈ ls, l.Clean)
    {s : Reader} (hnotes : ∀ n ∈ s.comments, Statement.IsNote n) (n : Nat) :
    s.feedAll layout (Segment.number n ((ls.map Line.text).map fun t => [t])) =
      .ok (s.takeAll ls) := by
  induction ls generalizing s n with
  | nil => rfl
  | cons l ls ih =>
    have hl := hls l List.mem_cons_self
    rw [List.map_cons, List.map_cons]
    unfold Segment.number feedAll
    rw [Text.joinLines_singleton, feed_line hb hl hnotes]
    exact ih (fun m hm => hls m (List.mem_cons_of_mem l hm)) (isNote_take hnotes hl) _

/-- The rows of the text of a script. -/
theorem ofText_script (hb : layout.banner = {}) {ls : List Line} (hls : ∀ l ∈ ls, l.Clean)
    (last : (ls.map Line.text).getLast? ≠ some []) :
    RowSet.ofText layout (Script.text ls) = .ok (takeAll {} ls).rows := by
  have hstands : ∀ t ∈ ls.map Line.text, Segment.Stands t := by
    intro t ht
    obtain ⟨l, hl, rfl⟩ := List.mem_map.1 ht
    exact (hls l hl).stands
  have hreturn : '\r' ∉ Script.text ls := by
    apply Text.not_mem_joinLines (by decide)
    intro t ht
    obtain ⟨l, hl, rfl⟩ := List.mem_map.1 ht
    exact (hls l hl).not_mem (.inr rfl)
  unfold RowSet.ofText
  rw [Text.normalizeNewlines_of_not_mem hreturn]
  unfold Script.text
  rw [Segment.ofText_joinLines hstands last, feedAll_lines hb hls (by simp)]
  rfl

theorem takeAll_append (s : Reader) (ls ms : List Line) :
    s.takeAll (ls ++ ms) = (s.takeAll ls).takeAll ms :=
  List.foldl_append

/-- Gaps change nothing. -/
theorem takeAll_intercalate (s : Reader) (n : Nat) (lss : List (List Line)) :
    s.takeAll (List.intercalate (List.replicate n .gap) lss) = s.takeAll lss.flatten := by
  have hgaps (s : Reader) : s.takeAll (List.replicate n .gap) = s := by
    induction n with
    | zero => rfl
    | succ n ih => exact ih
  induction lss generalizing s with
  | nil => rfl
  | cons ls lss ih =>
    cases lss with
    | nil => simp
    | cons ms lss =>
      rw [List.intercalate_cons_cons, takeAll_append, takeAll_append, hgaps, ih, ← takeAll_append]
      rfl

/-! ## What the readings come to -/

theorem Reflects.takeAll {s : Reader} {rows : List Row} (h : s.Reflects rows) (ls : List Line) :
    (s.takeAll ls).Reflects (rows ++ readings s.comments ls) := by
  induction ls generalizing s rows with
  | nil =>
    rw [readings, List.append_nil]
    exact h
  | cons l ls ih =>
    show ((s.take l).takeAll ls).Reflects _
    cases hrow : l.row? s.comments with
    | some r =>
      have := ih (h.receive (Line.shadows_of_row? hrow))
      rw [(s.receive_context r).1] at this
      rw [take_of_row? hrow, (readings_of_row? hrow ls).1]
      simpa using this
    | none =>
      rw [take_of_waits hrow, (readings_of_waits hrow ls).1]
      exact ih (h.congr rfl rfl)

end Reader

/-- **Reading the text of a document is taking the scripts of its items.** -/
theorem Document.Clean.reread {layout written : Layout} {d : Document}
    (h : d.Clean written) (hw : written.banner = {}) (few : written.Separable)
    (hb : layout.banner = {}) :
    RowSet.ofText layout (d.render written) =
      .ok (Reader.takeAll {} (d.items.flatMap (Item.script written))).rows := by
  rw [Document.render_eq hw few, Reader.ofText_script hb (fun l hl => h.mem_script hl) (getLast?_script d)]
  unfold Document.script
  rw [Reader.takeAll_intercalate, flatten_scripts]

/-! ## The readings of a document -/

theorem readings_append (notes : List Text) (ls ms : List Line) :
    readings notes (ls ++ ms) = readings notes ls ++ readings (waiting notes ls) ms ∧
      waiting notes (ls ++ ms) = waiting (waiting notes ls) ms := by
  induction ls generalizing notes with
  | nil => exact ⟨rfl, rfl⟩
  | cons l ls ih =>
    rw [List.cons_append]
    -- a row takes what waits; any other line hands it on
    cases h : l.row? notes with
    | some r =>
      obtain ⟨hr, hw⟩ := readings_of_row? h ls
      obtain ⟨hr', hw'⟩ := readings_of_row? h (ls ++ ms)
      rw [hr, hw, hr', hw', (ih []).1, (ih []).2]
      exact ⟨rfl, rfl⟩
    | none =>
      obtain ⟨hr, hw⟩ := readings_of_waits h ls
      obtain ⟨hr', hw'⟩ := readings_of_waits h (ls ++ ms)
      rw [hr, hw, hr', hw']
      exact ih _

/-- Nothing waits behind a row. -/
theorem waiting_script (layout : Layout) (k : Text) (r : Row) :
    waiting [] (r.script layout k) = [] := by
  unfold Row.script
  split
  · rfl
  · rw [(readings_append _ _ _).2]
    rfl

theorem readings_scriptRows (layout : Layout) (group : Text) (rows : List Row) :
    readings [] (Item.scriptRows layout group rows) =
        (rows.map (Row.atFullKey group)).flatMap (fun r => readings [] (r.script layout r.key)) ∧
      waiting [] (Item.scriptRows layout group rows) = [] := by
  unfold Item.scriptRows
  induction rows with
  | nil => exact ⟨rfl, rfl⟩
  | cons r rows ih =>
    obtain ⟨hread, hwait⟩ := readings_append [] (r.script layout (r.fullKey group))
      (rows.flatMap fun r => r.script layout (r.fullKey group))
    rw [waiting_script] at hread hwait
    rw [List.flatMap_cons, List.map_cons, List.flatMap_cons, hread, hwait, ih.1, ih.2]
    exact ⟨rfl, rfl⟩

theorem readings_item (layout : Layout) (i : Item) :
    readings [] (i.script layout) =
        (i.rows.map (Row.atFullKey i.group)).flatMap (fun r => readings [] (r.script layout r.key)) ∧
      waiting [] (i.script layout) = [] := by
  cases i with
  | row r => exact readings_scriptRows layout [] [r]
  | block b =>
    simp only [Item.script]
    split
    · exact readings_scriptRows layout b.name b.rows
    · exact readings_scriptRows layout b.name b.rows

/-- The readings of a document are those of its rows. -/
theorem readings_items (layout : Layout) (d : Document) :
    readings [] (d.items.flatMap (Item.script layout)) =
      d.flat.flatMap fun r => readings [] (r.script layout r.key) := by
  rw [Document.flat_eq]
  induction d.items with
  | nil => rfl
  | cons i items ih =>
    obtain ⟨hread, hwait⟩ := readings_item layout i
    rw [List.flatMap_cons, List.flatMap_cons, List.flatMap_append, (readings_append _ _ _).1, hread,
      hwait, ih]

end EnvFile
