import EnvFile.Proofs.BannerPlacing

/-! # What is read is clean

    A text is read with its line endings normalised, so nothing that a reader
    keeps of it, be it a comment or a banner, holds a carriage return.  The
    keys that it keeps are canonical.  Both hold after each segment
    (`Reader.Tidy.feed`), hence of every row set that is read
    (`RowSet.tidy_ofText`). -/

namespace EnvFile

/-! ## Parts of a line -/

theorem Text.strip_subset (p : Char → Bool) (t : Text) : strip p t ⊆ t :=
  fun _ hc => mem_of_mem_strip hc

theorem Banner.subset_of_title? {t : Template} {line title : Text}
    (h : t.title? line = some title) : title ⊆ line := by
  obtain ⟨inner, cut, rfl⟩ := Template.title?_eq_some_iff.1 h
  intro c hc
  have inside : c ∈ line.trim := by simp [cut, Text.strip_subset _ _ hc]
  exact Text.strip_subset _ _ inside

namespace Assignment

/-- The keyword and the blanks behind it hold no separator. -/
theorem exists_dropExport (t : Text) :
    ∃ pre, t = pre ++ dropExport t ∧ ∀ c ∈ pre, c ≠ '=' ∧ c ≠ ':' := by
  unfold dropExport
  split
  · rename_i b rest h
    split
    · rename_i hb
      refine ⟨"export".toList ++ b :: rest.takeWhile isBlank, ?_, ?_⟩
      · rw [List.append_assoc, List.cons_append, List.takeWhile_append_dropWhile,
          Text.after?_eq_some_iff.1 h]
      · have blank : ∀ c, isBlank c = true → c ≠ '=' ∧ c ≠ ':' := fun c hc =>
          ⟨ne_of_class hc (by decide), ne_of_class hc (by decide)⟩
        intro c hc
        rcases List.mem_append.1 hc with hc | hc
        · have keyword : "export".toList.all (fun c => c != '=' && c != ':') = true := by decide
          simpa using List.all_eq_true.1 keyword c hc
        · rcases List.mem_cons.1 hc with rfl | hc
          · exact blank c (Bool.and_eq_true_iff.1 hb).1
          · exact blank c (List.mem_takeWhile_imp hc)
    · exact ⟨[], rfl, fun c hc => absurd hc List.not_mem_nil⟩
  · exact ⟨[], rfl, fun c hc => absurd hc List.not_mem_nil⟩

theorem dropExport_subset (t : Text) : dropExport t ⊆ t := by
  obtain ⟨pre, ht, -⟩ := exists_dropExport t
  intro c hc
  rw [ht]
  exact List.mem_append_right pre hc

theorem subset_of_separator? {t rest : Text} {s : Separator} (h : separator? t = some (s, rest)) :
    rest ⊆ t := by
  unfold separator? at h
  split at h
  · rename_i b more
    split at h
    · cases h
      exact List.subset_cons_self _ _
    · cases h
  · split at h
    · rename_i more hdrop
      cases h
      have hsub : ('=' :: rest) ⊆ t := by
        rw [← hdrop]
        exact (List.dropWhile_sublist _).subset
      exact fun d hd => hsub (List.mem_cons_of_mem _ hd)
    · cases h

theorem subset_of_trailer? {t comment : Text} (h : trailer? t = some comment) : comment ⊆ t := by
  unfold trailer? at h
  split at h
  · cases h
    exact List.nil_subset t
  · rename_i c more hdrop
    split at h
    · cases h
      have hsub : (c :: comment) ⊆ t := by
        rw [← hdrop]
        exact (List.dropWhile_sublist _).subset
      exact fun d hd => hsub (List.mem_cons_of_mem _ hd)
    · cases h

theorem subset_of_lastClosing? {q : Char} {t body comment : Text}
    (h : lastClosing? q t = some (body, comment)) : comment ⊆ t := by
  induction t generalizing body with
  | nil => cases h
  | cons c t ih =>
    unfold lastClosing? at h
    split at h
    · rename_i b m hrest
      cases h
      exact fun d hd => List.mem_cons_of_mem c (ih hrest hd)
    · split at h
      · obtain ⟨m, hm, e⟩ := Option.map_eq_some_iff.1 h
        cases e
        exact fun d hd => List.mem_cons_of_mem c (subset_of_trailer? hm hd)
      · cases h

theorem subset_of_quoted? {t raw comment : Text} (h : quoted? t = some (raw, comment)) :
    comment ⊆ t := by
  cases t with
  | nil => cases h
  | cons q t =>
    simp only [quoted?] at h
    split at h
    · obtain ⟨⟨b, m⟩, hm, e⟩ := Option.map_eq_some_iff.1 h
      cases e
      exact fun d hd => List.mem_cons_of_mem q (subset_of_lastClosing? hm hd)
    · cases h

theorem subset_of_bare? {t raw comment : Text} (h : bare? t = some (raw, comment)) :
    comment ⊆ t := by
  unfold bare? at h
  obtain ⟨m, hm, e⟩ := Option.map_eq_some_iff.1 h
  cases e
  exact fun d hd => (List.dropWhile_sublist _).subset (subset_of_trailer? hm hd)

theorem subset_of_rawValue? {s : Separator} {t raw comment : Text}
    (h : rawValue? s t = some (raw, comment)) : comment ⊆ t := by
  have hbody : t.dropWhile isBlank ⊆ t := (List.dropWhile_sublist _).subset
  have either (o o' : Option (Text × Text)) (h : o.or o' = some (raw, comment)) :
      o = some (raw, comment) ∨ o' = some (raw, comment) := by
    cases o with
    | none => exact .inr h
    | some p => exact .inl h
  unfold rawValue? at h
  refine List.Subset.trans ?_ hbody
  split at h
  · rcases either _ _ h with h | h
    · exact subset_of_bare? h
    · exact subset_of_quoted? h
  · rcases either _ _ h with h | h
    · exact subset_of_quoted? h
    · exact subset_of_bare? h

/-- The key of an assignment is not empty and stands behind the keyword, and
    its comment is part of the line. -/
theorem read?_parts {line : Text} {a : Assignment} (h : read? line = some a) :
    a.key ≠ [] ∧ a.key = (dropExport line).takeWhile isKeyChar ∧ a.comment ⊆ line := by
  unfold read? at h
  simp only at h
  split at h
  · cases h
  · rename_i hkey
    obtain ⟨⟨s, rest⟩, hsep, h⟩ := Option.bind_eq_some_iff.1 h
    obtain ⟨⟨raw, comment⟩, hraw, h⟩ := Option.bind_eq_some_iff.1 h
    cases h
    refine ⟨by simpa using hkey, rfl, ?_⟩
    -- the comment stands behind the value, and the value behind the key
    intro c hc
    have hrest : c ∈ rest := subset_of_rawValue? hraw (Text.strip_subset _ _ hc)
    have hafter : c ∈ dropExport line :=
      (List.dropWhile_sublist _).subset (subset_of_separator? hsep hrest)
    exact dropExport_subset line hafter

end Assignment

/-! ## Statements -/

theorem not_mem_joinNonempty {ts : List Text} (h : ∀ t ∈ ts, '\r' ∉ t) :
    '\r' ∉ Text.joinNonempty ts :=
  Text.not_mem_joinLines (by decide) fun t ht => h t (List.mem_filter.1 ht).1

theorem Statement.not_mem_commentText {ls : List Text} (h : ∀ l ∈ ls, '\r' ∉ l) :
    '\r' ∉ commentText ls := by
  apply not_mem_joinNonempty
  intro t ht
  obtain ⟨l, hl, rfl⟩ := List.mem_map.1 ht
  exact fun hr => h l hl (Text.strip_subset _ _ hr)

theorem Statement.ofLines?_parts {ls : List Text} (hls : ∀ l ∈ ls, '\r' ∉ l) {a : Assignment}
    (h : ofLines? ls = some (.assignment a)) : a.key ≠ [] ∧ '\r' ∉ a.comment := by
  induction ls generalizing a with
  | nil => cases h
  | cons l ls ih =>
    have htail := fun m hm => hls m (List.mem_cons_of_mem l hm)
    unfold ofLines? at h
    split at h
    · exact ih htail h
    · -- a comment line adds itself to the comment of the lines below
      obtain ⟨st, hst, h⟩ := Option.map_eq_some_iff.1 h
      cases st with
      | assignment b =>
        cases h
        obtain ⟨hkey, hcomment⟩ := ih htail hst
        have hl : '\r' ∉ stripMarkers l :=
          fun hr => hls l List.mem_cons_self (Text.strip_subset _ _ hr)
        exact ⟨hkey, not_mem_joinNonempty
          (List.forall_mem_cons.2 ⟨hl, List.forall_mem_singleton.2 hcomment⟩)⟩
      | _ => cases h
    · obtain ⟨hkey, -, hsub⟩ := Assignment.read?_parts (of_ofBody? h)
      have hjoin : '\r' ∉ Text.joinLines (l :: ls) := Text.not_mem_joinLines (by decide) hls
      exact ⟨hkey, fun hr => hjoin (Text.strip_subset _ _ (hsub hr))⟩

theorem Statement.read?_parts {t : Text} (ht : '\r' ∉ t) {a : Assignment}
    (h : read? t = some (.assignment a)) : a.key ≠ [] ∧ '\r' ∉ a.comment :=
  ofLines?_parts (fun _ hl hr => ht (Text.mem_of_mem_lines hl hr).2) h

/-! ## Segments -/

namespace Segment

theorem mem_lines_of_mem_fileLines {t l : Text} (h : l ∈ fileLines t) : l ∈ t.lines := by
  unfold fileLines at h
  split at h
  · exact List.dropLast_subset _ h
  · exact h

/-- A numbered segment is one of the groups of lines. -/
theorem exists_of_mem_number {gs : List (List Text)} {n : Nat} {g : Segment}
    (h : g ∈ number n gs) : ∃ ls ∈ gs, g.text = Text.joinLines ls := by
  induction gs generalizing n with
  | nil => cases h
  | cons ls gs ih =>
    rcases List.mem_cons.1 h with rfl | h
    · exact ⟨ls, List.mem_cons_self, rfl⟩
    · obtain ⟨ms, hms, e⟩ := ih h
      exact ⟨ms, List.mem_cons_of_mem ls hms, e⟩

/-- The lines of a group are lines of the text. -/
theorem mem_lines_of_mem_group {t l : Text} {ls : List Text} (hls : ls ∈ group (fileLines t))
    (hl : l ∈ ls) : l ∈ t.lines := by
  apply mem_lines_of_mem_fileLines
  rw [← flatten_group (fileLines t)]
  exact List.mem_flatten.2 ⟨ls, hls, hl⟩

theorem not_mem_of_mem_ofText {t : Text} (ht : '\r' ∉ t) {g : Segment} (hg : g ∈ ofText t) :
    '\r' ∉ g.text := by
  obtain ⟨ls, hls, e⟩ := exists_of_mem_number hg
  rw [e]
  apply Text.not_mem_joinLines (by decide)
  intro l hl hr
  exact ht (Text.mem_of_mem_lines (mem_lines_of_mem_group hls hl) hr).2

end Segment

/-! ## Readers -/

namespace Reader

/-- What a reader keeps is clean. -/
structure Tidy (s : Reader) : Prop where
  rows : ∀ k r, s.rows.find? k = some r → Key.Canonical k ∧ '\r' ∉ r.comment
  banners : ∀ k t, s.rows.banner? k = some t → '\r' ∉ t
  comments : ∀ l ∈ s.comments, '\r' ∉ l
  banner : ∀ t, s.banner = some t → '\r' ∉ t

theorem tidy_empty : Tidy {} where
  rows _ _ h := nomatch h
  banners _ _ h := nomatch h
  comments _ h := nomatch h
  banner _ h := nomatch h

/-- A comment in a reader is one that came with a row. -/
theorem comment_insert {s : Reader} {r : Row} {k : Text} {m : Row}
    (h : (s.insert r).rows.find? k = some m) :
    (k = r.key ∧ m.comment = r.comment) ∨
      ∃ old, s.rows.find? k = some old ∧ m.comment = old.comment := by
  by_cases hk : r.key = k
  · rcases s.insert_cases r with hi | ⟨m', hi, key, hc⟩
    · rw [hi, rows_noteHistory] at h
      exact .inr ⟨m, h, rfl⟩
    · rw [hi, find?_insertRow_self s (key.trans hk)] at h
      cases h
      rcases hc with hc | ⟨old, hold, hc⟩
      · exact .inl ⟨hk.symm, hc⟩
      · exact .inr ⟨old, hk ▸ hold, hc⟩
  · rw [(insert_frame s hk).1] at h
    exact .inr ⟨m, h, rfl⟩

/-- A banner that is there when the next row comes was there before, or it
    waited for that row. -/
theorem banner_of_placeBanner {s : Reader} {key k t : Text}
    (h : (s.placeBanner key).rows.banner? k = some t) :
    s.rows.banner? k = some t ∨ s.banner = some t := by
  rw [banner?_placeBanner] at h
  split at h
  · exact (Option.or_eq_some_iff.1 h).imp_right And.right
  · exact .inl h

theorem Tidy.receive {s : Reader} (h : s.Tidy) {r : Row} (key : Key.Canonical r.key)
    (comment : '\r' ∉ r.comment) : (s.receive r).Tidy := by
  obtain ⟨hcomments, hbanner, hbanners⟩ := s.receive_context r
  obtain ⟨hrows, -, -, -⟩ := ({ s with comments := [] } : Reader).placeBanner_frame r.key
  constructor
  · intro k m hm
    rcases comment_insert hm with ⟨rfl, hc⟩ | ⟨old, hold, hc⟩
    · exact ⟨key, hc ▸ comment⟩
    · have hs : s.rows.find? k = some old := by
        unfold RowSet.find? at hold ⊢
        rw [hrows] at hold
        exact hold
      obtain ⟨hk, ho⟩ := h.rows k old hs
      exact ⟨hk, hc ▸ ho⟩
  · intro k t ht
    unfold RowSet.banner? at ht
    rw [hbanners] at ht
    rcases banner_of_placeBanner (s := s) ht with hold | hnew
    · exact h.banners k t hold
    · exact h.banner t hnew
  · rw [hcomments]
    simp
  · rw [hbanner]
    simp

/-- One segment more. -/
theorem Tidy.feed {layout : Layout} {s s' : Reader} (h : s.Tidy) {g : Segment}
    (hg : '\r' ∉ g.text) (hs : s.feed layout g = .ok s') : s'.Tidy := by
  have htrim : '\r' ∉ g.text.trim := fun hr => hg (Text.strip_subset _ _ hr)
  have hlines : ∀ l ∈ s.comments ++ [g.text.trim], '\r' ∉ l :=
    List.forall_mem_append.2 ⟨h.comments, List.forall_mem_singleton.2 htrim⟩
  cases fed_of_feed hs with
  | blank => exact h
  | banner _ banner =>
    refine ⟨h.rows, h.banners, h.comments, fun t ht => ?_⟩
    cases ht
    exact fun hr => htrim (Banner.subset_of_title? banner hr)
  | @disabled a _ _ reads =>
    have hrest : '\r' ∉ g.text.trim.dropWhile (· == '#') :=
      fun hr => htrim ((List.dropWhile_sublist _).subset hr)
    obtain ⟨hkey, hcomment⟩ := Statement.read?_parts hrest reads
    have hparts : ∀ t ∈ [Statement.commentText s.comments, a.comment], '\r' ∉ t :=
      List.forall_mem_cons.2
        ⟨Statement.not_mem_commentText h.comments, List.forall_mem_singleton.2 hcomment⟩
    exact h.receive (Key.canonical_normalize hkey) (not_mem_joinNonempty hparts)
  | note => exact ⟨h.rows, h.banners, hlines, h.banner⟩
  | skipped => exact h
  | live _ _ reads =>
    obtain ⟨hkey, hcomment⟩ :=
      Statement.read?_parts (Text.not_mem_joinLines (by decide) hlines) reads
    exact h.receive (Key.canonical_normalize hkey) hcomment
  | idle => exact ⟨h.rows, h.banners, by simp, h.banner⟩

/-- All segments. -/
theorem Tidy.feedAll {layout : Layout} {s s' : Reader} (h : s.Tidy) {gs : List Segment}
    (hgs : ∀ g ∈ gs, '\r' ∉ g.text) (hs : s.feedAll layout gs = .ok s') : s'.Tidy :=
  feedAll_keeps (fun g hg _ _ h hs => Tidy.feed h (hgs g hg) hs) h hs

end Reader

/-- **What is read of a text is clean.** -/
theorem RowSet.tidy_ofText {layout : Layout} {t : Text} {s : RowSet}
    (h : RowSet.ofText layout t = .ok s) :
    (∀ k r, s.find? k = some r → Key.Canonical k ∧ '\r' ∉ r.comment) ∧
      ∀ k b, s.banner? k = some b → '\r' ∉ b := by
  unfold RowSet.ofText at h
  cases hf : Reader.feedAll layout {} (Segment.ofText t.normalizeNewlines) with
  | error e => rw [hf] at h; cases h
  | ok m =>
    rw [hf] at h
    cases h
    have hclean := Text.not_mem_normalizeNewlines t
    have := Reader.tidy_empty.feedAll (fun g hg => Segment.not_mem_of_mem_ofText hclean hg) hf
    exact ⟨this.rows, this.banners⟩

end EnvFile
