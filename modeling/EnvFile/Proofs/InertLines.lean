import EnvFile.Proofs.KeptValues
import EnvFile.Proofs.MergingDocuments

/-! # Lines that make no variable live

    Of all that a reader keeps, only the live variables and their values are
    exported (`Reader.live?`).  A line is *inert* if it is a segment of its own
    and reads as something other than an assignment: a comment, even one that
    holds a disabled assignment, a blank line, or the word `export` alone.
    Wherever inert lines stand between live assignments, they change nothing
    about the live variables.

    * `Reader.live?_feed`: a segment makes live what it assigns, if that.
    * `Carries`: lines that are live assignments and inert lines.
    * `RowSet.ofText_carries`: what the live variables of such lines are. -/

namespace EnvFile

/-! ## What is live -/

namespace Reader

variable {s s' : Reader} {layout : Layout}

/-- The value of a variable that is live so far. -/
def live? (s : Reader) (k : Text) : Option Text :=
  RowSet.worth (s.rows.find? k)

/-- The first live row of a variable gives its value. -/
theorem live?_insert (s : Reader) (r : Row) (k : Text) :
    (s.insert r).live? k =
      if r.key = k ∧ r.disabled = false then (s.live? k).or (some r.value) else s.live? k := by
  unfold live?
  by_cases hk : r.key = k
  · subst hk
    cases hf : s.rows.find? r.key with
    | none =>
      rw [insert_of_new hf, find?_insertRow_self s rfl]
      cases hr : r.disabled <;> simp [RowSet.worth, hr]
    | some old =>
      have key : old.key = r.key := key_of_find? hf
      cases ho : old.disabled <;> cases hr : r.disabled
      · rw [insert_live_of_live hf ho hr, find?_insertRow_self s (by simpa using key)]
        simp [RowSet.worth, ho]
      · rw [insert_disabled_of_live hf ho hr, find?_insertRow_self s (by simpa using key)]
        simp [RowSet.worth, ho]
      · rw [insert_live_of_disabled hf ho hr, find?_insertRow_self s (by simp [revive])]
        simp [RowSet.worth, revive, ho, hr]
      · rw [insert_disabled_of_disabled hf ho hr, rows_noteHistory, hf]
        simp
  · rw [(s.insert_frame hk).1, if_neg fun h => hk h.1]

theorem live?_receive (s : Reader) (r : Row) (k : Text) :
    (s.receive r).live? k =
      if r.key = k ∧ r.disabled = false then (s.live? k).or (some r.value) else s.live? k := by
  have same : ({ s with comments := [] }.placeBanner r.key).live? k = s.live? k := by
    unfold live? RowSet.find?
    rw [(placeBanner_frame _ _).1]
  unfold receive
  rw [live?_insert, same]

/-- A segment leaves the live variables alone, or it is an assignment, which
    gives its value to a variable that was not live before. -/
theorem live?_feed {g : Segment} (h : s.feed layout g = .ok s') :
    (∀ k, s'.live? k = s.live? k) ∨
      ∃ a, (∃ c t, g.text.trim = c :: t ∧ c ≠ '#') ∧
        Statement.read? (Text.joinLines (s.comments ++ [g.text.trim])) = some (.assignment a) ∧
        ∀ k, s'.live? k =
          if Key.normalize a.key = k then (s.live? k).or (some a.value) else s.live? k := by
  cases fed_of_feed h with
  | @disabled a =>
    -- the row is there, but it is not live
    refine .inl fun k => (s.live?_receive _ k).trans ?_
    simp [Row.setDisabled]
  | @live a nonempty unmarked reads =>
    refine .inr ⟨a, ?_, reads, fun k => (s.live?_receive _ k).trans ?_⟩
    · obtain ⟨c, t, hct⟩ := List.exists_cons_of_ne_nil nonempty
      exact ⟨c, t, hct, fun e => unmarked (by rw [hct, e, List.head?_cons])⟩
    · simp [Row.setComment, Row.ofPair]
  | _ => exact .inl fun _ => rfl

theorem not_mem_comments_receive (s : Reader) (r : Row) (l : Text) :
    l ∉ (s.receive r).comments := by
  rw [(s.receive_context r).1]
  exact List.not_mem_nil

/-- The comment lines that wait behind a segment of one line are comment
    lines. -/
theorem isNote_feed (hnotes : ∀ l ∈ s.comments, Statement.IsNote l) {g : Segment}
    (hg : '\n' ∉ g.text) (h : s.feed layout g = .ok s') :
    ∀ l ∈ s'.comments, Statement.IsNote l := by
  cases fed_of_feed h with
  | disabled => exact fun l hl => absurd hl (s.not_mem_comments_receive _ l)
  | live => exact fun l hl => absurd hl (s.not_mem_comments_receive _ l)
  | idle => exact List.forall_mem_nil _
  | note mark => exact Statement.isNote_concat hnotes mark fun hn => hg (Text.mem_of_mem_strip hn)
  | _ => exact hnotes

end Reader

/-! ## Inert lines -/

namespace Segment

/-- A line that is read by itself and makes no variable live. -/
structure Inert (p : Text) : Prop where
  stands : Stands p
  reads : Statement.read? p ≠ none
  idle : ∀ a, Statement.read? p ≠ some (.assignment a)

instance (l : Text) : Decidable (Stands l) :=
  decidable_of_iff ('\n' ∉ l ∧ (opening? l).all (fun o => closes o.1 false o.2) = true) <| by
    constructor
    · intro h
      refine ⟨h.1, fun q t ho => ?_⟩
      have := h.2
      rw [ho] at this
      exact this
    · intro h
      refine ⟨h.whole, ?_⟩
      cases ho : opening? l with
      | none => rfl
      | some o => exact h.closed o.1 o.2 ho

instance (p : Text) : Decidable (Inert p) :=
  decidable_of_iff
    (Stands p ∧ Statement.read? p ≠ none ∧ ∀ a, Statement.read? p ≠ some (.assignment a))
    ⟨fun ⟨h₁, h₂, h₃⟩ => ⟨h₁, h₂, h₃⟩, fun ⟨h₁, h₂, h₃⟩ => ⟨h₁, h₂, h₃⟩⟩

theorem inert_nil : Inert [] :=
  ⟨stands_nil, by decide, fun a e => by cases e⟩

/-- A comment line is inert, whatever it holds. -/
theorem inert_mark {t : Text} (h : '\n' ∉ t) : Inert ('#' :: t) := by
  have read : ∃ text, Statement.read? ('#' :: t) = some (.comment text) := by
    rw [Statement.read?_line (by simpa using h)]
    rw [show Text.trim ('#' :: t) = _ from Text.strip_cons (by decide) t]
    exact ⟨_, rfl⟩
  obtain ⟨text, ht⟩ := read
  exact ⟨stands_mark h, by simp [ht], by simp [ht]⟩

/-- Below comment lines, too, an inert line is no assignment. -/
theorem Inert.read?_below {p : Text} (h : Inert p) {notes : List Text}
    (hnotes : ∀ l ∈ notes, Statement.IsNote l) :
    ∃ st, Statement.read? (Text.joinLines (notes ++ [p.trim])) = some st ∧ st.Idle := by
  obtain ⟨st, hst⟩ := Option.ne_none_iff_exists'.1 h.reads
  have idle : st.Idle := fun a e => h.idle a (e ▸ hst)
  refine ⟨st.belowAll notes, ?_, idle.belowAll notes⟩
  rw [Statement.read?_notes hnotes, Statement.read?_trim, hst, Option.map_some]

end Segment

/-- Reading an inert line succeeds and leaves the live variables alone. -/
theorem Reader.feed_inert {p : Text} (h : Segment.Inert p) {s : Reader}
    (hnotes : ∀ l ∈ s.comments, Statement.IsNote l) (layout : Layout) (n : Nat) :
    ∃ s', s.feed layout ⟨n, p⟩ = .ok s' ∧ (∀ l ∈ s'.comments, Statement.IsNote l) ∧
      ∀ k, s'.live? k = s.live? k := by
  obtain ⟨st, hst, idle⟩ := h.read?_below hnotes
  have ok : ∃ s', s.feed layout ⟨n, p⟩ = .ok s' := by
    unfold feed
    dsimp only
    split
    · exact ⟨_, rfl⟩
    · exact ⟨_, rfl⟩
    · unfold readStatement
      rw [hst]
      cases st with
      | assignment a => exact absurd rfl (idle a)
      | _ => exact ⟨_, rfl⟩
  obtain ⟨s', hs'⟩ := ok
  refine ⟨s', hs', isNote_feed hnotes h.stands.whole hs', ?_⟩
  rcases live?_feed hs' with same | ⟨a, -, ha, -⟩
  · exact same
  · exact absurd (Option.some.inj (hst.symm.trans ha)) (idle a)

/-! ## Lines with live assignments -/

/-- The lines are inert but for live assignments; these give the variables
    their values, in order. -/
inductive Carries : List Text → List (Text × Text) → Prop where
  | nil : Carries [] []
  | inert {p : Text} {ls : List Text} {as : List (Text × Text)} (line : Segment.Inert p)
      (rest : Carries ls as) : Carries (p :: ls) as
  | live {key : Text} (v : Text) {ls : List Text} {as : List (Text × Text)}
      (legible : Key.Legible key) (rest : Carries ls as) :
      Carries (Row.assignmentLine key v false :: ls) ((Key.normalize key, Value.kept v) :: as)

namespace Carries

variable {ls ms : List Text} {as bs : List (Text × Text)}

theorem of_inert (h : ∀ p ∈ ls, Segment.Inert p) : Carries ls [] := by
  induction ls with
  | nil => exact .nil
  | cons p ls ih =>
    exact .inert (h p List.mem_cons_self) (ih fun q hq => h q (List.mem_cons_of_mem p hq))

theorem append (h : Carries ls as) (h' : Carries ms bs) : Carries (ls ++ ms) (as ++ bs) := by
  induction h with
  | nil => exact h'
  | inert line _ ih => exact .inert line ih
  | live v legible _ ih => exact .live v legible ih

/-- A blank line at the end may go. -/
theorem of_concat_nil (h : Carries (ls ++ [[]]) as) : Carries ls as := by
  generalize hm : ls ++ [[]] = ms at h
  induction h generalizing ls with
  | nil => simp at hm
  | inert line rest ih =>
    cases ls with
    | nil =>
      obtain ⟨-, rfl⟩ := List.cons.inj hm
      exact rest
    | cons p ls =>
      obtain ⟨rfl, rest⟩ := List.cons.inj hm
      exact .inert line (ih rest)
  | live v legible rest ih =>
    cases ls with
    | nil => exact absurd (List.cons.inj hm).1.symm (by simp [Row.assignmentLine])
    | cons p ls =>
      obtain ⟨rfl, rest⟩ := List.cons.inj hm
      exact .live v legible (ih rest)

theorem stands (h : Carries ls as) : ∀ l ∈ ls, Segment.Stands l := by
  induction h with
  | nil => exact fun l hl => absurd hl List.not_mem_nil
  | inert line _ ih => exact List.forall_mem_cons.2 ⟨line.stands, ih⟩
  | live v legible _ ih =>
    exact List.forall_mem_cons.2 ⟨Segment.stands_assignmentLine legible v, ih⟩

/-- Reading such lines succeeds, and the first assignment of a variable that
    was not live gives its value. -/
theorem feedAll (h : Carries ls as) {s : Reader} (hnotes : ∀ l ∈ s.comments, Statement.IsNote l)
    (layout : Layout) (n : Nat) :
    ∃ s', s.feedAll layout (Segment.number n (ls.map fun t => [t])) = .ok s' ∧
      ∀ k, s'.live? k = (s.live? k).or ((as.find? (·.1 == k)).map Prod.snd) := by
  induction h generalizing s n with
  | nil => exact ⟨s, rfl, fun k => (Option.or_none).symm⟩
  | inert line _ ih =>
    obtain ⟨s₁, hs₁, hnotes₁, same⟩ := Reader.feed_inert line hnotes layout n
    obtain ⟨s', hs', live⟩ := ih hnotes₁ (n + 1)
    refine ⟨s', ?_, fun k => by rw [live, same]⟩
    rw [List.map_cons]
    unfold Segment.number Reader.feedAll
    rw [Text.joinLines_singleton, hs₁]
    exact hs'
  | @live key v ls as legible _ ih =>
    -- the assignment counts unless its variable is live already
    let r : Row :=
      { key := Key.normalize key, value := Value.kept v,
        comment := Statement.commentText s.comments }
    have fed : s.feed layout ⟨n, Row.assignmentLine key v false⟩ = .ok (s.receive r) :=
      Reader.feed_define legible v hnotes n
    obtain ⟨s', hs', live⟩ :=
      ih (fun l hl => absurd hl (s.not_mem_comments_receive r l)) (n + 1)
    refine ⟨s', ?_, fun k => ?_⟩
    · rw [List.map_cons]
      unfold Segment.number Reader.feedAll
      rw [Text.joinLines_singleton, fed]
      exact hs'
    · rw [live, s.live?_receive r]
      by_cases hk : Key.normalize key = k
      · rw [if_pos ⟨hk, rfl⟩, List.find?_cons_of_pos (by simpa using hk), Option.or_assoc]
        rfl
      · rw [if_neg fun h => hk h.1, List.find?_cons_of_neg (by simpa using hk)]

end Carries

/-- The live variables of a text whose lines are inert but for live
    assignments. -/
theorem RowSet.ofText_carries {t : Text} {as : List (Text × Text)}
    (h : Carries t.normalizeNewlines.lines as) (layout : Layout) :
    ∃ s, RowSet.ofText layout t = .ok s ∧
      ∀ k, worth (s.find? k) = (as.find? (·.1 == k)).map Prod.snd := by
  -- a line feed at the end of the text begins no line
  have lines : Carries (Segment.fileLines t.normalizeNewlines) as := by
    unfold Segment.fileLines
    split
    · rename_i last
      refine Carries.of_concat_nil ?_
      rw [List.dropLast_append_getLast? _ last]
      exact h
    · exact h
  obtain ⟨s, hs, live⟩ := lines.feedAll (s := {}) (fun l hl => nomatch hl) layout 1
  refine ⟨s.rows, ?_, live⟩
  unfold RowSet.ofText Segment.ofText
  rw [Segment.group_of_stands lines.stands, hs]
  rfl

end EnvFile
