import EnvFile.Proofs.Annotations
import EnvFile.Proofs.Enclosing

/-! # What annotations can inject

    Two documents that differ in their annotations only should be read again
    with the same live variables.  So they are when the lines hidden in the
    annotations are inert.  No weaker condition on the single lines will do:
    for every line that is not inert there are two such documents, one that
    hides nothing and one that hides this line, of which the second fails to
    be read, or gains a variable, or loses one.

    * `Document.Alike`: read again, the two documents have the same entries.
    * `Document.intruded`: the document that hides a line, above a variable
      whose key is longer than the line.
    * `Document.annotations_alike_iff`: which hidden lines leave documents
      alike. -/

namespace EnvFile

/-! ## Documents without their annotations -/

/-- The item without its comments. -/
def Item.unannotated : Item → Item
  | .row r => .row r.unannotated
  | .block b => .block { b with comment := [], rows := b.rows.map Row.unannotated }

namespace Document

/-- The document without its comments. -/
def unannotated (d : Document) : Document :=
  { items := d.items.map Item.unannotated }

theorem entries_unannotated (d : Document) : d.unannotated.entries = d.entries := by
  rw [entries_eq, entries_eq]
  unfold unannotated
  rw [List.flatMap_map]
  refine List.flatMap_congr fun i _ => ?_
  cases i with
  | row r => rfl
  | block b => exact List.flatMap_map Row.unannotated (fun r => r.entry (r.fullKey b.name)) b.rows

/-- Written and read again, both documents have the same entries. -/
def Alike (d e : Document) : Prop :=
  ∃ d' e', ofText {} (d.render {}) = .ok d' ∧ ofText {} (e.render {}) = .ok e' ∧
    d'.entries.Perm e'.entries

theorem alike_of_inert {d e : Document} (hd : d.Assembled) (he : e.Assembled)
    (same : d.unannotated = e.unannotated) (inert : ∀ p ∈ d.hidden ++ e.hidden, Segment.Inert p) :
    Alike d e := by
  obtain ⟨d', hd', nodup, entries⟩ :=
    hd.entries_reread (fun p hp => inert p (List.mem_append_left _ hp)) {}
  obtain ⟨e', he', nodup', entries'⟩ :=
    he.entries_reread (fun p hp => inert p (List.mem_append_right _ hp)) {}
  refine ⟨d', e', hd', he', ?_⟩
  have written : d.entries = e.entries := by
    rw [← d.entries_unannotated, same, e.entries_unannotated]
  rw [List.perm_ext_iff_of_nodup nodup.of_map nodup'.of_map]
  rintro ⟨k, v⟩
  rw [entries, entries', written]

end Document

/-! ## Keys that are read from a text -/

namespace Assignment

/-- The key of an assignment stands in front of the first separator. -/
theorem exists_key {t : Text} {a : Assignment} (h : read? t.trim = some a) :
    ∃ pre post, t = pre ++ a.key ++ post ∧ ∀ c ∈ pre ++ a.key, c ≠ '=' ∧ c ≠ ':' := by
  obtain ⟨blanks, right, ht, hblanks, -⟩ := Text.exists_strip isBlank t
  obtain ⟨pre, hpre, plain⟩ := exists_dropExport t.trim
  obtain ⟨-, key, -⟩ := read?_parts h
  have cut : t.trim = pre ++ a.key ++ (dropExport t.trim).dropWhile isKeyChar := by
    rw [key, List.append_assoc, List.takeWhile_append_dropWhile]
    exact hpre
  refine ⟨blanks ++ pre, (dropExport t.trim).dropWhile isKeyChar ++ right, ?_, fun c hc => ?_⟩
  · refine ht.trans ?_
    rw [show Text.strip isBlank t = _ from cut]
    simp
  · -- neither blanks, nor the keyword, nor the key hold a separator
    rcases List.mem_append.1 hc with hc | hc
    · rcases List.mem_append.1 hc with hc | hc
      · exact ⟨ne_of_class (hblanks c hc) (by decide), ne_of_class (hblanks c hc) (by decide)⟩
      · exact plain c hc
    · have hk := List.mem_takeWhile_imp (key ▸ hc)
      exact ⟨ne_of_class hk (by decide), ne_of_class hk (by decide)⟩

end Assignment

/-- What does not reach the separator behind `v` is no longer than `v`. -/
theorem length_le_of_separator {w post v rest : Text} {s : Char} (h : w ++ post = v ++ s :: rest)
    (hw : s ∉ w) : w.length ≤ v.length := by
  rcases List.append_eq_append_iff.1 h with ⟨u, rfl, -⟩ | ⟨u, rfl, hu⟩
  · simp
  · cases u with
    | nil => simp
    | cons c u => exact absurd (by simp [(List.cons.inj hu).1]) hw

/-! ## Quotes that a line leaves open -/

namespace Segment

/-- The first quote behind text without a backslash closes. -/
theorem closes_of_mem {q : Char} {pre : Text} (h : '\\' ∉ pre) (post : Text) :
    closes q false (pre ++ q :: post) = true := by
  induction pre with
  | nil => simp [closes]
  | cons c pre ih =>
    simp only [List.mem_cons, not_or] at h
    have hc : (c == '\\') = false := by simpa using Ne.symm h.1
    rw [List.cons_append]
    unfold closes
    rw [hc, Bool.and_false, Bool.false_and, ih h.2, Bool.or_true]

/-- A line that leaves a quote open takes in the line that closes it. -/
theorem group_of_opening? {p t line : Text} {q : Char} (ho : opening? p = some (q, t))
    (hc : closes q false t = false) (hl : closes q false line = true) :
    group [p, line] = [[p, line]] := by
  have framed := @group_open q t p ho line [] hc (fun l hm => nomatch hm) hl []
  rwa [group] at framed

/-- A quote in the value closes, whichever quote it is. -/
theorem closes_assignmentLine {key : Text} {q : Char} (hq : Value.isQuote q = true)
    (hk : '\\' ∉ key) : closes q false (Row.assignmentLine key [q] false) = true := by
  have quotes : q = '"' ∨ q = '\'' := by simpa [Value.isQuote] using hq
  rw [Row.assignmentLine_live]
  rcases quotes with rfl | rfl
  · rw [show Value.write ['"'] = ['"', '\\', '"', '"'] by decide]
    simpa using @closes_of_mem '"' (key ++ ['=']) (by simpa using hk) ['\\', '"', '"']
  · rw [show Value.write ['\''] = ['"', '\'', '"'] by decide]
    simpa using @closes_of_mem '\'' (key ++ ['=', '"']) (by simpa using hk) ['"']

end Segment

/-! ## What stays live -/

namespace Reader

variable {s s' : Reader} {layout : Layout}

theorem of_map_rows {x : Except Fault Reader} {rows : RowSet} (h : x.map Reader.rows = .ok rows) :
    ∃ s', x = .ok s' ∧ s'.rows = rows := by
  cases x with
  | error e => cases h
  | ok s' => exact ⟨s', rfl, Except.ok.inj h⟩

theorem of_feedAll_cons {g : Segment} {gs : List Segment}
    (h : s.feedAll layout (g :: gs) = .ok s') :
    ∃ s₁, s.feed layout g = .ok s₁ ∧ s₁.feedAll layout gs = .ok s' := by
  unfold feedAll at h
  split at h
  · rename_i s₁ hs₁
    exact ⟨s₁, hs₁, h⟩
  · cases h

/-- A line that is read by itself without being inert makes live what it
    assigns. -/
theorem live_of_feed (alone : s.comments = []) {p : Text} (hp : Segment.Stands p)
    (h : ¬ Segment.Inert p) {n : Nat} (hs : s.feed layout ⟨n, p⟩ = .ok s') :
    ∃ a, Assignment.read? p.trim = some a ∧
      s'.live? (Key.normalize a.key) = (s.live? (Key.normalize a.key)).or (some a.value) := by
  have line := Statement.read?_line hp.whole
  have reads : Statement.read? (Text.joinLines (s.comments ++ [p.trim])) = Statement.read? p := by
    rw [alone, List.nil_append, Text.joinLines_singleton]
    exact Statement.read?_trim p
  -- blank lines and comment lines are inert
  have marked (mark : p.trim.head? = some '#') : Segment.Inert p := by
    obtain ⟨t, ht⟩ := List.head?_eq_some_iff.1 mark
    rw [ht] at line
    exact ⟨hp, by simp [line], by simp [line]⟩
  cases fed_of_feed hs with
  | blank empty =>
    rw [show p.trim = [] from empty] at line
    exact absurd ⟨hp, by simp [line], by simp [line]⟩ h
  | banner mark => exact absurd (marked mark) h
  | disabled mark => exact absurd (marked mark) h
  | note mark => exact absurd (marked mark) h
  | skipped mark => exact absurd (marked mark) h
  | idle _ _ some idle =>
    exact absurd ⟨hp, fun e => some (reads.trans e), fun a e => idle a (reads.trans e)⟩ h
  | @live a nonempty unmarked assigns =>
    refine ⟨a, ?_, ?_⟩
    · have assigns := line.symm.trans (reads.symm.trans assigns)
      split at assigns
      · cases assigns
      · cases assigns
      · exact Statement.of_ofBody? assigns
    · refine (s.live?_receive _ _).trans ?_
      rw [if_pos ⟨rfl, rfl⟩]
      rfl

theorem live?_mono {g : Segment} (h : s.feed layout g = .ok s') {k v : Text}
    (live : s.live? k = some v) : s'.live? k = some v := by
  rcases live?_feed h with same | ⟨a, -, -, eq⟩
  · rw [same, live]
  · rw [eq, live]
    split <;> rfl

theorem live?_feedAll {gs : List Segment} (h : s.feedAll layout gs = .ok s') {k v : Text}
    (live : s.live? k = some v) : s'.live? k = some v :=
  feedAll_keeps (fun _ _ _ _ live h => live?_mono h live) live h

end Reader

/-! ## A line that is not inert -/

/-- A carriage return ends a comment line, and what stands behind it is read
    as lines of its own. -/
theorem Text.lines_return {t : Text} (h : t.head? ≠ some '\n') :
    (normalizeNewlines ('#' :: ' ' :: '\r' :: t)).lines =
      ['#', ' '] :: t.normalizeNewlines.lines := by
  have ends : normalizeNewlines ('\r' :: t) = '\n' :: t.normalizeNewlines := by
    rw [normalizeNewlines, if_pos rfl]
    rintro u - rfl
    exact h rfl
  have marker : normalizeNewlines ('#' :: ' ' :: '\r' :: t) =
      ['#', ' '] ++ '\n' :: t.normalizeNewlines := by
    rw [← ends]
    simp [normalizeNewlines]
  rw [marker, lines_append]
  rfl

/-- A key that is longer than a text. -/
def Key.beyond (p : Text) : Text :=
  List.replicate (p.length + 1) 'K'

theorem Key.canonical_beyond (p : Text) : Key.Canonical (beyond p) where
  ne_nil := by simp [beyond]
  normal := by
    have collapse (n : Nat) : collapse (List.replicate n 'K') = List.replicate n 'K' := by
      induction n with
      | zero => rfl
      | succ n ih =>
        rw [List.replicate_succ, Key.collapse, if_neg (by simp), ih]
    unfold normalize beyond
    rw [List.map_replicate]
    exact collapse _

theorem Key.backslash_not_mem_beyond (p : Text) : '\\' ∉ beyond p := by
  simp [beyond]

/-- No key that is as short as the text normalises to the key beyond it. -/
theorem Key.normalize_ne_beyond {k p : Text} (h : k.length ≤ p.length) :
    Key.normalize k ≠ beyond p := by
  intro e
  have short : (Key.normalize k).length ≤ k.length := by
    have := length_collapse_le (k.map canonicalChar)
    rwa [List.length_map] at this
  rw [e, beyond, List.length_replicate] at short
  omega

namespace Document

/-- The document of one variable that hides a line above it.  The key is
    longer than the line, and the value has a quote in it. -/
def intruded (p : Text) (q : Char) : Document :=
  { items := [.row { key := Key.beyond p, value := [q], comment := '\r' :: p }] }

variable {p : Text} {q : Char}

theorem assembled_intruded (p : Text) (q : Char) :
    (intruded p q).Assembled ∧ (intruded p q).unannotated.Assembled := by
  have canonical := Key.canonical_beyond p
  constructor
  · exact ⟨by simpa [Normal, Item.Normal, Item.key, Item.rows, intruded] using canonical.normal,
      by simpa [Item.rows, Item.group, Row.fullKey, intruded] using canonical.ne_nil⟩
  · exact ⟨by simpa [Normal, Item.Normal, Item.key, Item.rows, intruded, unannotated,
        Item.unannotated, Row.unannotated] using canonical.normal,
      by simpa [Item.rows, Item.group, Row.fullKey, intruded, unannotated, Item.unannotated,
        Row.unannotated] using canonical.ne_nil⟩

theorem script_intruded (hn : '\n' ∉ p) (q : Char) :
    (intruded p q).script {} = [.note ('\r' :: p), .define (Key.beyond p) [q] false] := by
  have lines : Text.lines ('\r' :: p) = ['\r' :: p] :=
    Text.lines_of_not_mem (by simpa using hn)
  have item : (intruded p q).items.map (Item.script {}) =
      [[.note ('\r' :: p), .define (Key.beyond p) [q] false]] := by
    show [Item.scriptRows {} [] [_]] = _
    unfold Item.scriptRows Row.script
    rw [List.flatMap_singleton]
    dsimp only
    rw [lines]
    rfl
  unfold Document.script
  rw [item]
  rfl

theorem hidden_intruded (hn : '\n' ∉ p) (hr : '\r' ∉ p) (ne : p ≠ []) (q : Char) :
    (intruded p q).unannotated.hidden = [] ∧ (intruded p q).hidden = [p] := by
  refine ⟨rfl, ?_⟩
  obtain ⟨c, t, rfl⟩ := List.exists_cons_of_ne_nil ne
  have head : (c :: t).head? ≠ some '\n' := fun e => hn ((Option.some.inj e) ▸ List.mem_cons_self)
  unfold hidden
  rw [script_intruded hn]
  show Text.hidden ('#' :: ' ' :: '\r' :: (c :: t)) ++ [] = _
  unfold Text.hidden
  rw [Text.lines_return head, Text.normalizeNewlines_of_not_mem hr, Text.lines_of_not_mem hn]
  rfl

/-- The reader of the document begins with an empty comment line. -/
theorem ofText_intruded (hn : '\n' ∉ p) (hr : '\r' ∉ p) (ne : p ≠ []) (q : Char) :
    RowSet.ofText {} ((intruded p q).render {}) =
      (Reader.feedAll {} {} (Segment.number 2
        (Segment.group [p, Row.assignmentLine (Key.beyond p) [q] false]))).map Reader.rows := by
  have legible := (Key.canonical_beyond p).legible
  generalize hl : Row.assignmentLine (Key.beyond p) [q] false = line
  have feed : '\n' ∉ line := hl ▸ Row.not_mem_assignmentLine legible [q] (.inl rfl)
  have ret : '\r' ∉ line := hl ▸ Row.not_mem_assignmentLine legible [q] (.inr rfl)
  have text : (intruded p q).render {} = '#' :: ' ' :: '\r' :: (p ++ '\n' :: line) := by
    rw [Document.render_eq rfl (by decide), script_intruded hn, ← hl]
    show Text.joinLines [_, _] = _
    rw [Text.joinLines_cons_cons, Text.joinLines_singleton]
    rfl
  -- the carriage return ends the comment line, so `p` is a line of its own
  have lines : ((intruded p q).render {}).normalizeNewlines.lines = [['#', ' '], p, line] := by
    obtain ⟨c, t, rfl⟩ := List.exists_cons_of_ne_nil ne
    have head : (c :: t ++ '\n' :: line).head? ≠ some '\n' :=
      fun e => hn ((Option.some.inj e) ▸ List.mem_cons_self)
    have plain : '\r' ∉ c :: t ++ '\n' :: line := by
      intro hm
      rcases List.mem_append.1 hm with hm | hm
      · exact hr hm
      · exact (List.mem_cons.1 hm).elim (by decide) ret
    rw [text, Text.lines_return head, Text.normalizeNewlines_of_not_mem plain, Text.lines_append,
      Text.lines_of_not_mem hn, Text.lines_of_not_mem feed]
    rfl
  have last : line ≠ [] := by
    obtain ⟨c, t, e, -⟩ := Row.exists_assignmentLine legible [q]
    rw [← hl, e]
    exact List.cons_ne_nil c t
  have first : Segment.group [['#', ' '], p, line] = [['#', ' ']] :: Segment.group [p, line] := by
    rw [Segment.group]
    rfl
  unfold RowSet.ofText Segment.ofText Segment.fileLines
  rw [lines, if_neg (by simpa using last), first]
  rfl

/-- If the line is a segment of its own, it is no statement, or it makes
    another variable live. -/
theorem live_of_stands (hp : Segment.Stands p) (hr : '\r' ∉ p) (h : ¬ Segment.Inert p)
    {s : RowSet} (hs : RowSet.ofText {} ((intruded p q).render {}) = .ok s) :
    ∃ k v, k ≠ Key.beyond p ∧ RowSet.worth (s.find? k) = some v := by
  have ne : p ≠ [] := fun e => h (e ▸ Segment.inert_nil)
  have stands : ∀ l ∈ [p, Row.assignmentLine (Key.beyond p) [q] false], Segment.Stands l := by
    simpa using ⟨hp, Segment.stands_assignmentLine (Key.canonical_beyond p).legible [q]⟩
  rw [ofText_intruded hp.whole hr ne, Segment.group_of_stands stands] at hs
  obtain ⟨s', fed, rfl⟩ := Reader.of_map_rows hs
  obtain ⟨s₁, hs₁, rest⟩ := Reader.of_feedAll_cons fed
  rw [Text.joinLines_singleton] at hs₁
  obtain ⟨a, ha, live⟩ := Reader.live_of_feed rfl hp h hs₁
  obtain ⟨pre, post, e, -⟩ := Assignment.exists_key ha
  refine ⟨Key.normalize a.key, a.value, Key.normalize_ne_beyond ?_, Reader.live?_feedAll rest live⟩
  rw [e]
  simp
  omega

/-- If the line leaves a quote open that closes in the value, the variable
    below it is not made live. -/
theorem not_live_of_opening? {t : Text} (ho : Segment.opening? p = some (q, t))
    (hc : Segment.closes q false t = false) (hn : '\n' ∉ p) (hr : '\r' ∉ p)
    {s : RowSet} (hs : RowSet.ofText {} ((intruded p q).render {}) = .ok s) :
    RowSet.worth (s.find? (Key.beyond p)) = none := by
  obtain ⟨quote, blank, v, sep, rest, hsep, isSep⟩ := Segment.of_opening? ho
  have ne : p ≠ [] := by
    rintro rfl
    cases blank
  rw [ofText_intruded hn hr ne, Segment.group_of_opening? ho hc
    (Segment.closes_assignmentLine quote (Key.backslash_not_mem_beyond p))] at hs
  obtain ⟨s', fed, rfl⟩ := Reader.of_map_rows hs
  obtain ⟨s₁, hs₁, last⟩ := Reader.of_feedAll_cons fed
  cases last
  show s'.live? (Key.beyond p) = none
  rcases Reader.live?_feed hs₁ with same | ⟨a, ⟨c, u, hu, mark⟩, ha, live⟩
  · rw [same]
    rfl
  · -- the key of the statement stands in the line, in front of the separator
    have nonblank : isBlank c = false := Text.head?_strip (congrArg List.head? hu)
    have trim : Text.trim (c :: u) = c :: u := hu ▸ Text.trim_trim _
    rw [show ({} : Reader).comments = [] from rfl, List.nil_append, Text.joinLines_singleton, hu,
      Statement.read?_body nonblank mark, trim, ← hu] at ha
    obtain ⟨pre, post, e, plain⟩ := Assignment.exists_key (Statement.of_ofBody? ha)
    have before : pre ++ a.key ++ post =
        v ++ sep :: (rest ++ '\n' :: Row.assignmentLine (Key.beyond p) [q] false) := by
      rw [← e, Text.joinLines_cons_cons, Text.joinLines_singleton, hsep]
      simp
    have short := length_le_of_separator before fun hm =>
      isSep.elim (plain sep hm).1 (plain sep hm).2
    rw [live, if_neg (Key.normalize_ne_beyond ?_)]
    · rfl
    · rw [hsep]
      simp only [List.length_append, List.length_cons] at short ⊢
      omega

/-- Without the comment, the variable of the document is read, and no other.
    So if the two are alike, so it is with the comment. -/
theorem live_of_alike (h : Alike (intruded p q).unannotated (intruded p q)) :
    ∃ s, RowSet.ofText {} ((intruded p q).render {}) = .ok s ∧
      (∃ v, RowSet.worth (s.find? (Key.beyond p)) = some v) ∧
      ∀ k v, RowSet.worth (s.find? k) = some v → k = Key.beyond p := by
  obtain ⟨d', e', hd', he', perm⟩ := h
  obtain ⟨d'', hd'', -, entries⟩ :=
    (assembled_intruded p q).2.entries_reread (fun l hl => absurd hl List.not_mem_nil) {}
  cases hd'.symm.trans hd''
  cases hs : RowSet.ofText {} ((intruded p q).render {}) with
  | error e =>
    unfold ofText at he'
    rw [hs] at he'
    cases he'
  | ok s =>
    unfold ofText at he'
    rw [hs] at he'
    cases he'
    have written : (intruded p q).unannotated.entries = [(Key.beyond p, [q])] := rfl
    have normal := (Key.canonical_beyond p).normal
    -- the entries of the one are those of the other, up to their order
    have live (k v : Text) : RowSet.worth (s.find? k) = some v ↔
        k = Key.beyond p ∧ v = Value.kept [q] := by
      rw [RowSet.worth_eq_some_iff, ← s.mem_entries_arrange {}, ← perm.mem_iff, entries, written]
      by_cases hk : Key.beyond p = k
      · subst hk
        rw [List.find?_cons_of_pos (by simp [normal])]
        exact ⟨fun e => ⟨rfl, (Option.some.inj e).symm⟩, fun e => congrArg some e.2.symm⟩
      · simp [normal, hk, Ne.symm hk]
    exact ⟨s, rfl, ⟨_, (live _ _).2 ⟨rfl, rfl⟩⟩, fun k v h => ((live k v).1 h).1⟩

/-- For every line that is not inert there are two documents that hide this
    line alone, and the reader tells them apart. -/
theorem exists_not_alike (hn : '\n' ∉ p) (hr : '\r' ∉ p) (h : ¬ Segment.Inert p) :
    ∃ d e : Document, d.Assembled ∧ e.Assembled ∧ d.unannotated = e.unannotated ∧
      d.hidden ++ e.hidden = [p] ∧ ¬ Alike d e := by
  have ne : p ≠ [] := fun e => h (e ▸ Segment.inert_nil)
  suffices ∃ q, ¬ Alike (intruded p q).unannotated (intruded p q) by
    obtain ⟨q, hq⟩ := this
    obtain ⟨he, hd⟩ := assembled_intruded p q
    obtain ⟨hidden, hidden'⟩ := hidden_intruded hn hr ne q
    exact ⟨_, _, hd, he, rfl, by rw [hidden, hidden', List.nil_append], hq⟩
  by_cases hp : Segment.Stands p
  · -- the line is read by itself
    refine ⟨'"', fun alike => ?_⟩
    obtain ⟨s, hs, -, only⟩ := live_of_alike alike
    obtain ⟨k, v, hk, live⟩ := live_of_stands hp hr h hs
    exact hk (only k v live)
  · -- the line takes in the variable below it
    obtain ⟨q, t, ho, hc⟩ : ∃ q t, Segment.opening? p = some (q, t) ∧
        Segment.closes q false t = false := by
      by_contra none
      refine hp ⟨hn, fun q t ho => ?_⟩
      by_contra hc
      exact none ⟨q, t, ho, by simpa using hc⟩
    refine ⟨q, fun alike => ?_⟩
    obtain ⟨s, hs, ⟨v, live⟩, -⟩ := live_of_alike alike
    rw [not_live_of_opening? ho hc hn hr hs] at live
    cases live

/-- **Annotations inject nothing exactly if the lines that they hide are
    inert.**  Take any class of lines that may be hidden in annotations.
    Documents that differ in their annotations only are then always read again
    with the same entries exactly if all lines of the class are inert. -/
theorem annotations_alike_iff (P : Text → Prop) :
    (∀ d e : Document, d.Assembled → e.Assembled → d.unannotated = e.unannotated →
      (∀ p ∈ d.hidden ++ e.hidden, P p) → Alike d e) ↔
    ∀ p : Text, '\n' ∉ p → '\r' ∉ p → P p → Segment.Inert p := by
  constructor
  · intro alike p hn hr hp
    by_contra h
    obtain ⟨d, e, hd, he, same, hidden, differ⟩ := exists_not_alike hn hr h
    exact differ (alike d e hd he same (by simpa [hidden] using hp))
  · intro inert d e hd he same hidden
    refine alike_of_inert hd he same fun p hp => ?_
    have plain : '\n' ∉ p ∧ '\r' ∉ p :=
      (List.mem_append.1 hp).elim not_mem_of_mem_hidden not_mem_of_mem_hidden
    exact inert p plain.1 plain.2 (hidden p hp)

/-- Comment lines, blank lines and the word `export` do no harm, in a comment
    or in a banner; an assignment does. -/
theorem annotations_alike_sample :
    let rows (comment : String) : List Row :=
      [{ key := "HOST".toList, value := "\"x".toList, comment := comment.toList },
        { key := "_PORT".toList, value := "5".toList, disabled := true }]
    let arranged (comment banner : String) : Document :=
      { items :=
          [.row { key := "A".toList, value := "1".toList, comment := comment.toList,
                  shadows := ["2".toList] },
            .block { name := "APP".toList, comment := banner.toList, rows := rows comment }] }
    let d := arranged "" ""
    let e := arranged "note\r# B=2\r\r\nC=3\rexport" "x\n# D=4"
    d.Assembled ∧ e.Assembled ∧ d.unannotated = e.unannotated ∧
      (∀ p ∈ d.hidden ++ e.hidden, Segment.Inert p) ∧ e.hidden.length = 9 ∧ Alike d e ∧
      ¬ ∀ d e : Document, d.Assembled → e.Assembled → d.unannotated = e.unannotated →
        (∀ p ∈ d.hidden ++ e.hidden, p = "B=2".toList) → Alike d e := by
  intro rows arranged d e
  have hd : d.Assembled := by decide +kernel
  have he : e.Assembled := by decide +kernel
  have same : d.unannotated = e.unannotated := by decide +kernel
  have inert : ∀ p ∈ d.hidden ++ e.hidden, Segment.Inert p := by decide +kernel
  have harmful : ¬ Segment.Inert "B=2".toList := by decide +kernel
  refine ⟨hd, he, same, inert, by decide +kernel, ?_, fun alike => harmful ?_⟩
  · exact (annotations_alike_iff Segment.Inert).2 (fun p _ _ hp => hp) d e hd he same inert
  · exact (annotations_alike_iff (· = "B=2".toList)).1 alike _ (by decide) (by decide) rfl

theorem not_alike_of_length {d e : Document}
    (h : (ofText {} (d.render {})).toOption.map (·.entries.length) ≠
      (ofText {} (e.render {})).toOption.map (·.entries.length)) : ¬ Alike d e := by
  rintro ⟨d', e', hd, he, perm⟩
  rw [hd, he] at h
  exact h (congrArg some perm.length_eq)

/-- A comment can inject a live variable, and so can a banner; and a comment
    can leave a text that cannot be read again. -/
theorem annotations_inject :
    let plain (comment : String) : Document :=
      { items := [.row { key := "A".toList, value := "1".toList, comment := comment.toList }] }
    let titled (banner : String) : Document :=
      { items := [.block { name := "G".toList, comment := banner.toList,
                           rows := [{ key := "A".toList, value := "1".toList }] }] }
    (∀ c ∈ ["x\rB=2", "x\ry"], (plain "").Assembled ∧ (plain c).Assembled ∧
      (plain "").unannotated = (plain c).unannotated ∧ ¬ Alike (plain "") (plain c)) ∧
    ((titled "").Assembled ∧ (titled "x\nB=2#").Assembled ∧
      (titled "").unannotated = (titled "x\nB=2#").unannotated ∧
      ¬ Alike (titled "") (titled "x\nB=2#")) ∧
    (∃ d, ofText {} ((plain "x\rB=2").render {}) = .ok d ∧
      d.entries = [("A".toList, "1".toList), ("B".toList, "2".toList)]) ∧
    ofText {} ((plain "x\ry").render {}) = .error (.malformed 2 "y".toList) := by
  intro plain titled
  refine ⟨?_, ?_, ?_, by decide +kernel⟩
  · intro c hc
    refine ⟨by decide +kernel, ?_⟩
    rcases List.mem_cons.1 hc with rfl | hc
    · exact ⟨by decide +kernel, by decide +kernel, not_alike_of_length (by decide +kernel)⟩
    · cases List.mem_singleton.1 hc
      exact ⟨by decide +kernel, by decide +kernel, not_alike_of_length (by decide +kernel)⟩
  · exact ⟨by decide +kernel, by decide +kernel, by decide +kernel,
      not_alike_of_length (by decide +kernel)⟩
  · let forged := (ofText {} ((plain "x\rB=2").render {})).toOption.getD {}
    exact ⟨forged, by decide +kernel, by decide +kernel⟩

end Document

end EnvFile
