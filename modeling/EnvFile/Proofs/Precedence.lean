import EnvFile.Loader
import EnvFile.Proofs.Arrangement

/-! # Precedence among files

    A loader merges the rows of several files.  This module says which file
    decides about a variable:

    * the last file in which the variable is live gives its value;
    * if it is live in none, the last file that mentions it gives the value of
      a disabled row.

    Merging works variable by variable (`find?_merge`), so the fate of a
    variable is a fold over what the single files say of it (`resolve`).
    Each step of that fold is one of the four cases of `overlay`. -/

namespace EnvFile

namespace RowSet

/-! ## One variable, two sources -/

/-- What two sources together say of a variable. -/
def overlay : Option Row → Option Row → Option Row
  | none, later => later
  | some earlier, none => some earlier
  | some earlier, some later => some (supersede earlier later)

theorem key_supersede {earlier later : Row} (h : earlier.key = later.key) :
    (supersede earlier later).key = later.key := by
  unfold supersede Row.merge Row.setValue
  cases earlier.disabled <;> cases later.disabled <;> simp [h]

/-- A live row counts, whatever was there before. -/
theorem overlay_live (o : Option Row) {r : Row} (live : r.disabled = false) :
    ∃ m, overlay o (some r) = some m ∧ m.disabled = false ∧ m.value = r.value := by
  cases o with
  | none => exact ⟨r, rfl, live, rfl⟩
  | some e =>
    refine ⟨supersede e r, rfl, ?_⟩
    unfold supersede Row.merge Row.setValue
    cases e.disabled <;> simp [live]

/-- A row that is not live changes neither the value nor the state of a live
    one. -/
theorem overlay_of_live {m : Row} (live : m.disabled = false) {o : Option Row}
    (ho : ∀ r, o = some r → r.disabled = true) :
    ∃ m', overlay (some m) o = some m' ∧ m'.disabled = false ∧ m'.value = m.value := by
  cases o with
  | none => exact ⟨m, rfl, live, rfl⟩
  | some r =>
    refine ⟨supersede m r, rfl, ?_⟩
    unfold supersede
    simp [live, ho r rfl]

/-- Among disabled rows the later counts. -/
theorem overlay_disabled {o : Option Row} (ho : ∀ e, o = some e → e.disabled = true) {r : Row}
    (hr : r.disabled = true) :
    ∃ m, overlay o (some r) = some m ∧ m.disabled = true ∧ m.value = r.value := by
  cases o with
  | none => exact ⟨r, rfl, hr, rfl⟩
  | some e =>
    refine ⟨supersede e r, rfl, ?_⟩
    unfold supersede Row.merge Row.setValue
    simp [ho e rfl, hr]

/-- A comment is not lost. -/
theorem comment_overlay {m : Row} (h : m.comment ≠ []) (o : Option Row) :
    ∃ m', overlay (some m) o = some m' ∧ m'.comment ≠ [] := by
  cases o with
  | none => exact ⟨m, rfl, h⟩
  | some r =>
    refine ⟨supersede m r, rfl, ?_⟩
    unfold supersede Row.merge Row.setValue
    cases m.disabled <;> cases r.disabled
    · exact Row.comment_backfillComment_ne_nil (.inl (by simpa using h))
    · simpa using h
    · exact Row.comment_backfillComment_ne_nil (.inr h)
    · exact Row.comment_backfillComment_ne_nil (.inl (by simpa using h))

/-! ## All variables, two sources -/

@[simp] theorem find?_insert_self (s : RowSet) {r : Row} {k : Text} (h : r.key = k) :
    (s.insert r).find? k = some r :=
  h ▸ Catalog.find?_insert_self s.rows r

theorem find?_insert_ne (s : RowSet) {r : Row} {k : Text} (h : r.key ≠ k) :
    (s.insert r).find? k = s.find? k :=
  Catalog.find?_insert_ne s.rows h

theorem key_of_find? {s : RowSet} {k : Text} {r : Row} (h : s.find? k = some r) : r.key = k :=
  Catalog.key_eq_of_find? h

theorem find?_mergeRow (s : RowSet) (r : Row) (k : Text) :
    (s.mergeRow r).find? k =
      if r.key = k then overlay (s.find? k) (some r) else s.find? k := by
  unfold mergeRow
  by_cases hk : r.key = k
  · subst hk
    rw [if_pos rfl]
    cases h : s.find? r.key with
    | none => exact find?_insert_self s rfl
    | some e => exact find?_insert_self s (key_supersede (key_of_find? h))
  · rw [if_neg hk]
    cases h : s.find? r.key with
    | none => exact find?_insert_ne s hk
    | some e => exact find?_insert_ne s (key_supersede (key_of_find? h) ▸ hk)

theorem find?_foldl_mergeRow (s : RowSet) {rows : List Row} (h : (rows.map Row.key).Nodup)
    (k : Text) :
    (rows.foldl mergeRow s).find? k = overlay (s.find? k) (rows.find? (·.key == k)) := by
  induction rows generalizing s with
  | nil => cases h : s.find? k <;> simp [h, overlay]
  | cons r rows ih =>
    obtain ⟨hr, hrows⟩ := List.nodup_cons.1 h
    rw [List.foldl_cons, ih _ hrows, find?_mergeRow]
    by_cases hk : r.key = k
    · subst hk
      -- keys are distinct, so no row behind `r` says anything of its variable
      have hn : rows.find? (·.key == r.key) = none := by
        refine List.find?_eq_none.2 fun o ho e => hr ?_
        rw [← beq_iff_eq.1 e]
        exact List.mem_map_of_mem ho
      rw [if_pos rfl, hn, List.find?_cons_of_pos (by simp)]
      cases s.find? r.key <;> rfl
    · rw [if_neg hk, List.find?_cons_of_neg (by simpa using hk)]

theorem find?_noteBanners (s : RowSet) (banners : List (Text × Text)) (k : Text) :
    (banners.foldl (fun t (key, banner) => t.noteBanner key banner) s).find? k = s.find? k := by
  induction banners generalizing s with
  | nil => rfl
  | cons b banners ih => rw [List.foldl_cons, ih]; rfl

/-- Merging works variable by variable. -/
theorem find?_merge (s later : RowSet) (k : Text) :
    (s.merge later).find? k = overlay (s.find? k) (later.find? k) := by
  unfold merge
  rw [find?_noteBanners, find?_foldl_mergeRow s later.nodup_keys]
  rfl

/-! ## One variable, many sources -/

/-- What sources together say of a variable, from what each says of it. -/
def resolve (said : List (Option Row)) : Option Row :=
  said.foldl overlay none

/-- A source that does not have the variable live. -/
def NotLive (o : Option Row) : Prop :=
  ∀ r ∈ o, r.disabled = true

instance (o : Option Row) : Decidable (NotLive o) :=
  inferInstanceAs (Decidable (∀ r ∈ o, r.disabled = true))

theorem resolve_notLive {said : List (Option Row)} (h : ∀ o ∈ said, NotLive o) :
    NotLive (resolve said) := by
  unfold resolve
  induction said using List.reverseRecOn with
  | nil => intro r hr; cases hr
  | append_singleton said o ih =>
    have before : NotLive (said.foldl overlay none) := ih fun p hp => h p (by simp [hp])
    have now : NotLive o := h o (by simp)
    rw [List.foldl_append, List.foldl_cons, List.foldl_nil]
    cases o with
    | none =>
      intro m hm
      cases hs : said.foldl overlay none <;> rw [hs] at before hm
      · cases hm
      · exact before m hm
    | some r =>
      obtain ⟨m, hm, dis, -⟩ := overlay_disabled before (now r rfl)
      intro m' hm'
      rw [hm] at hm'
      cases hm'
      exact dis

/-- The last source in which the variable is live decides. -/
theorem resolve_of_live {pre post : List (Option Row)} {r : Row} (live : r.disabled = false)
    (h : ∀ o ∈ post, NotLive o) :
    ∃ m, resolve (pre ++ some r :: post) = some m ∧ m.disabled = false ∧ m.value = r.value := by
  unfold resolve
  rw [List.foldl_append, List.foldl_cons]
  obtain ⟨m, hm, hlive, hv⟩ := overlay_live (pre.foldl overlay none) live
  rw [hm, ← hv]
  clear hm hv
  -- what the later sources say leaves a live row live, with its value
  induction post generalizing m with
  | nil => exact ⟨m, rfl, hlive, rfl⟩
  | cons o post ih =>
    obtain ⟨m', hm', hlive', hv'⟩ := overlay_of_live hlive (h o List.mem_cons_self)
    rw [List.foldl_cons, hm', ← hv']
    exact ih (fun p hp => h p (List.mem_cons_of_mem o hp)) m' hlive'

/-- Where the variable is live nowhere, the last source that has it
    decides. -/
theorem resolve_of_disabled {pre post : List (Option Row)} {r : Row} (hr : r.disabled = true)
    (hpre : ∀ o ∈ pre, NotLive o) (hpost : ∀ o ∈ post, o = none) :
    ∃ m, resolve (pre ++ some r :: post) = some m ∧ m.disabled = true ∧ m.value = r.value := by
  obtain ⟨m, hm, dis, hv⟩ := overlay_disabled (resolve_notLive hpre) hr
  refine ⟨m, ?_, dis, hv⟩
  -- the sources behind it say nothing
  have rest : ∀ o ∈ post, overlay (some m) o = some m := by
    intro o ho
    rw [hpost o ho]
    rfl
  unfold resolve at hm ⊢
  rw [List.foldl_append, List.foldl_cons, hm]
  clear hm hpost
  induction post with
  | nil => rfl
  | cons o post ih =>
    rw [List.foldl_cons, rest o List.mem_cons_self]
    exact ih fun p hp => rest p (List.mem_cons_of_mem o hp)

/-- A comment that is there after some sources is there after more. -/
theorem comment_foldl_overlay {m : Row} (h : m.comment ≠ []) (said : List (Option Row)) :
    ∃ m', said.foldl overlay (some m) = some m' ∧ m'.comment ≠ [] := by
  induction said generalizing m with
  | nil => exact ⟨m, rfl, h⟩
  | cons o said ih =>
    obtain ⟨m', hm', h'⟩ := comment_overlay h o
    rw [List.foldl_cons, hm']
    exact ih h'

/-! ## All variables, many sources -/

/-- Sources merged in order. -/
def mergeAll (sources : List RowSet) : RowSet :=
  sources.foldl merge {}

theorem find?_foldl_merge (s : RowSet) (sources : List RowSet) (k : Text) :
    (sources.foldl merge s).find? k = (sources.map (·.find? k)).foldl overlay (s.find? k) := by
  induction sources generalizing s with
  | nil => rfl
  | cons t sources ih => rw [List.foldl_cons, ih, find?_merge]; rfl

theorem find?_mergeAll (sources : List RowSet) (k : Text) :
    (mergeAll sources).find? k = resolve (sources.map (·.find? k)) :=
  find?_foldl_merge {} sources k

/-- The variable is live in the row set with this value. -/
def Live (s : RowSet) (k v : Text) : Prop :=
  ∃ r, s.find? k = some r ∧ r.disabled = false ∧ r.value = v

instance (s : RowSet) (k v : Text) : Decidable (s.Live k v) :=
  inferInstanceAs (Decidable (∃ r ∈ s.find? k, r.disabled = false ∧ r.value = v))

/-- In the last source that has the variable live it has this value. -/
def LastLive (sources : List RowSet) (k v : Text) : Prop :=
  ∃ pre s post, sources = pre ++ s :: post ∧ s.Live k v ∧ ∀ t ∈ post, ∀ w, ¬ t.Live k w

/-- In the last source that mentions the variable it has this value. -/
def LastMention (sources : List RowSet) (k v : Text) : Prop :=
  ∃ pre s post r, sources = pre ++ s :: post ∧ s.find? k = some r ∧ r.value = v ∧
    ∀ t ∈ post, t.find? k = none

theorem notLive_iff {s : RowSet} {k : Text} : NotLive (s.find? k) ↔ ∀ w, ¬ s.Live k w := by
  unfold NotLive Live
  constructor
  · rintro h w ⟨r, hr, live, -⟩
    rw [h r hr] at live
    cases live
  · intro h r hr
    by_contra hd
    exact h r.value ⟨r, hr, by simpa using hd, rfl⟩

/-- If a variable is live in some source, it is in a last one. -/
theorem exists_lastLive {sources : List RowSet} {k : Text}
    (h : ∃ s ∈ sources, ∃ v, s.Live k v) : ∃ v, LastLive sources k v := by
  obtain ⟨pre, s, post, e, ⟨v, hv⟩, hpost⟩ := exists_last h
  exact ⟨v, pre, s, post, e, hv, fun t ht w hw => hpost t ht ⟨w, hw⟩⟩

/-- Merging keeps the last live value. -/
theorem live_mergeAll_of_lastLive {sources : List RowSet} {k v : Text}
    (h : LastLive sources k v) : (mergeAll sources).Live k v := by
  obtain ⟨pre, s, post, rfl, ⟨r, hr, live, rfl⟩, hpost⟩ := h
  unfold Live
  rw [find?_mergeAll, List.map_append, List.map_cons, hr]
  refine resolve_of_live live fun o ho => ?_
  obtain ⟨t, ht, rfl⟩ := List.mem_map.1 ho
  exact notLive_iff.2 (hpost t ht)

theorem live_mergeAll_iff {sources : List RowSet} {k v : Text} :
    (mergeAll sources).Live k v ↔ LastLive sources k v := by
  refine ⟨fun h => ?_, live_mergeAll_of_lastLive⟩
  have somewhere : ∃ s ∈ sources, ∃ w, s.Live k w := by
    by_contra hn
    have nowhere : ∀ o ∈ sources.map (·.find? k), NotLive o := by
      intro o ho
      obtain ⟨s, hs, rfl⟩ := List.mem_map.1 ho
      exact notLive_iff.2 fun w hw => hn ⟨s, hs, w, hw⟩
    have := resolve_notLive nowhere
    rw [← find?_mergeAll] at this
    exact notLive_iff.1 this v h
  obtain ⟨w, hw⟩ := exists_lastLive somewhere
  -- the merged value is the last live one, so the two are the same
  obtain ⟨r, hr, -, rfl⟩ := h
  obtain ⟨r', hr', -, rfl⟩ := live_mergeAll_of_lastLive hw
  rw [hr] at hr'
  cases hr'
  exact hw

/-- A variable that is live nowhere is disabled, with its last value. -/
theorem disabled_mergeAll_of_lastMention {sources : List RowSet} {k v : Text}
    (nowhere : ∀ s ∈ sources, ∀ w, ¬ s.Live k w) (h : LastMention sources k v) :
    ∃ m, (mergeAll sources).find? k = some m ∧ m.disabled = true ∧ m.value = v := by
  obtain ⟨pre, s, post, r, rfl, hr, rfl, hpost⟩ := h
  have hs : NotLive (s.find? k) := notLive_iff.2 (nowhere s (by simp))
  rw [find?_mergeAll, List.map_append, List.map_cons, hr]
  refine resolve_of_disabled (hs r hr) (fun o ho => ?_) (fun o ho => ?_)
  · obtain ⟨t, ht, rfl⟩ := List.mem_map.1 ho
    exact notLive_iff.2 (nowhere t (by simp [ht]))
  · obtain ⟨t, ht, rfl⟩ := List.mem_map.1 ho
    exact hpost t ht

/-- A comment that is there after some sources is there after all later
    ones. -/
theorem comment_mergeAll_take {sources : List RowSet} {k : Text} {i j : Nat} (hij : i ≤ j)
    {r : Row} (hr : (mergeAll (sources.take i)).find? k = some r) (hc : r.comment ≠ []) :
    ∃ r', (mergeAll (sources.take j)).find? k = some r' ∧ r'.comment ≠ [] := by
  have split : sources.take j = sources.take i ++ (sources.take j).drop i := by
    have := List.take_append_drop i (sources.take j)
    rw [List.take_take, Nat.min_eq_left hij] at this
    exact this.symm
  have later := comment_foldl_overlay hc (((sources.take j).drop i).map (·.find? k))
  rw [← hr, ← find?_foldl_merge] at later
  unfold mergeAll at later ⊢
  rw [split, List.foldl_append]
  exact later

end RowSet

end EnvFile
