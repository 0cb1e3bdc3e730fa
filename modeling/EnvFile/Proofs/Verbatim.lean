import EnvFile.Document.Read
import EnvFile.Proofs.Enclosing
import EnvFile.Proofs.Paragraphs

/-! # Values in single quotes

    Nothing is escaped between single quotes, so a value can be written there
    as it is.  Only what ends the value can go wrong: the reader frames a
    statement by the first closing quote and reads its value up to the last
    one.  The two agree if the value has no line feed, where the line ends the
    statement anyway, or no single quote in it.

    * `Assignment.read?_verbatim`: such an assignment is read as it is.
    * `Segment.group_verbatim`: it is framed as it is, whatever stands below.
    * `Document.ofText_verbatim`: a mapping that is written in this way is read
      as the document of the mapping. -/

namespace EnvFile

/-! ## One assignment -/

/-- The assignment of a value in single quotes. -/
def Assignment.verbatim (key v : Text) : Text :=
  key ++ '=' :: '\'' :: (v ++ ['\''])

/-- Values between single quotes are read as they are. -/
theorem Value.read_single (v : Text) : read ('\'' :: (v ++ ['\''])) = v := by
  unfold read
  rw [unquote?_quoted rfl, Option.getD_some]
  rfl

namespace Assignment

variable {key : Text}

theorem read?_verbatim (h : Key.Legible key) (v : Text) :
    Statement.read? (verbatim key v) =
      some (.assignment { key, value := v, comment := [] }) := by
  have trim : Text.trim ('\'' :: (v ++ ['\''])) = '\'' :: (v ++ ['\'']) := Value.trim_quoted rfl v
  have reads := read?_equals h (rawValue?_quoted (q := '\'') rfl v)
  rw [trim, Value.read_single] at reads
  exact Statement.read?_equals h trim reads

theorem kind_verbatim (h : Key.Legible key) (v : Text) (layout : Layout) :
    Segment.kind layout (verbatim key v) = .row { key, value := v } false :=
  Segment.kind_of_assignment h (.inl rfl) (read?_verbatim h v) layout

end Assignment

/-! ## Framing -/

namespace Segment

/-- Single quotes enclose what has none in it. -/
theorem encloses_single {t : Text} (h : '\'' ∉ t) : Encloses '\'' t where
  inside := by
    rintro pre post rfl
    simp at h
  behind := fun escaped => absurd escaped.1 (by decide)

/-- The statement is framed as it is, whatever stands below it. -/
theorem group_verbatim {key v : Text} (h : Key.Legible key) (apart : '\n' ∉ v ∨ '\'' ∉ v)
    (ls : List Text) :
    group ((Assignment.verbatim key v).lines ++ ls) =
      (Assignment.verbatim key v).lines :: group ls := by
  have plain := newline_not_mem_equals h
  have opens := @opening?_quoted key '\'' h rfl
  have statement : Assignment.verbatim key v = key ++ ['='] ++ '\'' :: (v ++ ['\'']) := by
    simp [Assignment.verbatim]
  rw [statement]
  by_cases hn : '\n' ∈ v
  · exact group_enclosed rfl opens plain List.not_mem_nil
      (encloses_single (apart.resolve_left (not_not_intro hn))) ls
  · -- a value on one line ends with the line, whatever quotes are in it
    have line : (key ++ ['='] ++ '\'' :: (v ++ ['\''])).lines =
        [key ++ ['='] ++ '\'' :: (v ++ ['\''])] := by
      apply Text.lines_of_not_mem
      simp only [List.mem_append, not_or] at plain ⊢
      simp [plain, hn]
    have closed : closes '\'' false (v ++ ['\'']) = true :=
      closes_iff.2 ⟨v, [], rfl, fun escaped => absurd escaped.1 (by decide)⟩
    rw [line]
    exact group_closed (opens _) closed ls

end Segment

/-! ## A file of such assignments -/

/-- The text that assigns values in single quotes, in order. -/
def Script.verbatim (pairs : List (Text × Text)) : Text :=
  Text.joinLines (pairs.map fun p => Assignment.verbatim p.1 p.2)

namespace Script

variable {pairs : List (Text × Text)}

/-- The text ends in the quote of its last value. -/
theorem exists_verbatim_eq_concat (h : pairs ≠ []) : ∃ t, verbatim pairs = t ++ ['\''] := by
  obtain ⟨before, p, rfl⟩ := (List.eq_nil_or_concat' pairs).resolve_left h
  have statement : Assignment.verbatim p.1 p.2 = p.1 ++ '=' :: '\'' :: p.2 ++ ['\''] := by
    unfold Assignment.verbatim
    simp
  unfold verbatim
  rw [List.map_append, List.map_singleton, statement, ← Text.joinLines_concat_append]
  exact ⟨_, rfl⟩

theorem fileLines_verbatim (pairs : List (Text × Text)) :
    Segment.fileLines (verbatim pairs) =
      pairs.flatMap fun p => (Assignment.verbatim p.1 p.2).lines := by
  by_cases h : pairs = []
  · subst h
    decide
  · obtain ⟨t, ht⟩ := exists_verbatim_eq_concat h
    have last : (verbatim pairs).getLast? = some '\'' := by rw [ht, List.getLast?_concat]
    rw [Segment.fileLines_of_getLast? last (by decide)]
    unfold verbatim
    rw [Text.lines_joinLines_texts (by simpa using h), List.flatMap_map]

/-- Every statement is a segment of its own. -/
theorem segments_verbatim (legible : ∀ p ∈ pairs, Key.Legible p.1)
    (apart : ∀ p ∈ pairs, '\n' ∉ p.2 ∨ '\'' ∉ p.2) :
    (Segment.ofText (verbatim pairs)).map Segment.text =
      pairs.map fun p => Assignment.verbatim p.1 p.2 := by
  have groups : Segment.group (pairs.flatMap fun p => (Assignment.verbatim p.1 p.2).lines) =
      pairs.map fun p => (Assignment.verbatim p.1 p.2).lines := by
    induction pairs with
    | nil => rw [List.flatMap_nil, Segment.group, List.map_nil]
    | cons p pairs ih =>
      have rest := ih (fun q hq => legible q (List.mem_cons_of_mem p hq))
        fun q hq => apart q (List.mem_cons_of_mem p hq)
      have first := Segment.group_verbatim (legible p List.mem_cons_self)
        (apart p List.mem_cons_self)
      rw [List.flatMap_cons, first, rest, List.map_cons]
  unfold Segment.ofText
  rw [fileLines_verbatim, groups, Segment.map_text_number, List.map_map]
  exact List.map_congr_left fun p _ => Text.joinLines_lines _

theorem creturn_not_mem_verbatim (legible : ∀ p ∈ pairs, Key.Legible p.1)
    (creturn : ∀ p ∈ pairs, '\r' ∉ p.2) : '\r' ∉ verbatim pairs := by
  apply Text.not_mem_joinLines (by decide)
  intro l hl
  obtain ⟨p, hp, rfl⟩ := List.mem_map.1 hl
  have key : '\r' ∉ p.1 := fun hm => absurd ((legible p hp).isKeyChar hm) (by decide)
  simp [Assignment.verbatim, key, creturn p hp]

end Script

/-! ## The document -/

theorem RowSet.find?_ofRows (rows : List Row) (k : Text) :
    (ofRows rows).find? k = (occurrences k rows).getLast? :=
  Catalog.find?_ofList rows k

namespace Paragraph

variable {layout : Layout}

/-- The paragraph of an assignment in single quotes. -/
def verbatim (layout : Layout) {key : Text} (h : Key.Legible key) (v : Text) :
    Paragraph layout where
  notes := []
  statement := Assignment.verbatim key v
  assignment := { key, value := v }
  disabled := false
  silent := List.forall_mem_nil _
  brings := Assignment.kind_verbatim h v layout

/-- The assignments are paragraphs, and they bring the rows of the pairs. -/
theorem exists_verbatim {pairs : List (Text × Text)} (legible : ∀ p ∈ pairs, Key.Legible p.1) :
    ∃ ps : List (Paragraph layout),
      ps.flatMap texts = pairs.map (fun p => Assignment.verbatim p.1 p.2) ∧
        ps.map row = pairs.map (fun p => Row.ofPair p.1 p.2) ∧ ∀ p ∈ ps, p.banner? = none := by
  induction pairs with
  | nil => exact ⟨[], rfl, rfl, List.forall_mem_nil _⟩
  | cons p pairs ih =>
    obtain ⟨ps, texts, rows, banners⟩ := ih fun q hq => legible q (List.mem_cons_of_mem p hq)
    refine ⟨verbatim layout (legible p List.mem_cons_self) p.2 :: ps, ?_, ?_, ?_⟩
    · rw [List.flatMap_cons, texts, List.map_cons]
      rfl
    · rw [List.map_cons, rows, List.map_cons]
      rfl
    · exact List.forall_mem_cons.2 ⟨rfl, banners⟩

end Paragraph

/-- Rows of distinct variables are there as they are, in whatever order they
    were taken in. -/
theorem Reader.Reflects.find?_eq {s : Reader} {rows rows' : List Row} (h : s.Reflects rows)
    (perm : rows.Perm rows') (distinct : (rows.map Row.key).Nodup)
    (fresh : ∀ r ∈ rows, r.shadows = []) (k : Text) :
    s.rows.find? k = (RowSet.ofRows rows').find? k := by
  have same : occurrences k rows' = occurrences k rows := (filter_key_perm perm distinct k).symm
  rw [h.found, RowSet.find?_ofRows, same]
  rcases filter_key_cases distinct k with none | ⟨r, hr, one⟩
  · rw [show occurrences k rows = [] from none]
    rfl
  · rw [show occurrences k rows = [r] from one, settle_singleton (fresh r hr)]
    rfl

/-- **Every mapping can be written so that it is read again as it is.**  Write
    the values in single quotes, in any order.  What is read is the document of
    the mapping, if its keys are distinct variables, no value has a carriage
    return, and none has both a line feed and a single quote. -/
theorem Document.ofText_verbatim {ps qs : List (Text × Text)} (perm : qs.Perm ps)
    (legible : ∀ p ∈ ps, Key.Legible p.1) (distinct : (ps.map fun p => Key.normalize p.1).Nodup)
    (creturn : ∀ p ∈ ps, '\r' ∉ p.2) (apart : ∀ p ∈ ps, '\n' ∉ p.2 ∨ '\'' ∉ p.2)
    (layout : Layout) : ofText layout (Script.verbatim qs) = .ok (ofPairs ps layout) := by
  have legible' : ∀ p ∈ qs, Key.Legible p.1 := fun p hp => legible p (perm.subset hp)
  have creturn' : ∀ p ∈ qs, '\r' ∉ p.2 := fun p hp => creturn p (perm.subset hp)
  have apart' : ∀ p ∈ qs, '\n' ∉ p.2 ∨ '\'' ∉ p.2 := fun p hp => apart p (perm.subset hp)
  obtain ⟨us, texts, rows, banners⟩ := @Paragraph.exists_verbatim layout qs legible'
  have segments := Script.segments_verbatim legible' apart'
  obtain ⟨s, hs, past⟩ := Reader.past_empty.feedAll (segments.trans texts.symm)
  -- the rows that were read are those of the mapping, and there are no banners
  have reflects : s.Reflects (qs.map fun p => Row.ofPair p.1 p.2) := rows ▸ past.rows
  have same : s.rows = RowSet.ofPairs ps := by
    apply RowSet.ext_find?
    · intro k
      apply reflects.find?_eq (perm.map _)
      · rw [List.map_map]
        exact (perm.map _).nodup_iff.2 distinct
      · intro r hr
        obtain ⟨p, -, rfl⟩ := List.mem_map.1 hr
        rfl
    · intro k
      have untitled : s.rows.banner? k = none := by
        rw [past.banners, List.nil_append]
        apply List.findSome?_eq_none_iff.2
        intro u hu
        exact banners u (List.mem_filter.1 hu).1
      rw [untitled]
      rfl
  unfold ofText RowSet.ofText
  rw [Text.normalizeNewlines_of_not_mem (Script.creturn_not_mem_verbatim legible' creturn'), hs]
  show Except.ok (s.rows.arrange layout) = _
  rw [same]
  rfl

/-- Values with line feeds, comment markers, double quotes and blanks, and one
    with single quotes, one of them in front of a comment marker. -/
theorem Document.ofText_verbatim_hostile :
    let ps : List (Text × Text) :=
      [("app.name".toList, " a\nB=2\n\n# \"c\\n\" \n".toList), ("X__Y".toList, "it's' #".toList),
        ("_".toList, "'".toList), ("K".toList, [])]
    let qs := ps.reverse
    let layout : Layout := { banner := { before := "'".toList, after := [] } }
    qs.Perm ps ∧ (∀ p ∈ ps, Key.Legible p.1) ∧ (ps.map fun p => Key.normalize p.1).Nodup ∧
      (∀ p ∈ ps, '\r' ∉ p.2) ∧ (∀ p ∈ ps, '\n' ∉ p.2 ∨ '\'' ∉ p.2) ∧
      ofText layout (Script.verbatim qs) = .ok (ofPairs ps layout) := by
  intro ps qs layout
  have perm : qs.Perm ps := List.reverse_perm ps
  have legible : ∀ p ∈ ps, Key.Legible p.1 := by decide
  have distinct : (ps.map fun p => Key.normalize p.1).Nodup := by decide
  have creturn : ∀ p ∈ ps, '\r' ∉ p.2 := by decide
  have apart : ∀ p ∈ ps, '\n' ∉ p.2 ∨ '\'' ∉ p.2 := by decide
  exact ⟨perm, legible, distinct, creturn, apart,
    ofText_verbatim perm legible distinct creturn apart layout⟩

end EnvFile
