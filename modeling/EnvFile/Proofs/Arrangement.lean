import EnvFile.Proofs.Lists
import EnvFile.RowSet.Arrangement

/-! # Arranging loses nothing

    Arranging puts the rows of a row set into blocks or leaves them loose.
    Seen under their full keys, the rows of the document are the rows of the
    set.

    * `Document.flat`: the rows of a document under their full keys.
    * `Document.under?`: the row under a full key.
    * `flat_arrange`: they are the rows of the row set, each once.
    * `mem_entries_arrange`: the entries are the live rows. -/

namespace EnvFile

/-! ## Groups -/

namespace Key

/-- A key names a member of a group exactly if it splits there. -/
theorem isMember_iff {g : Text} (ne : g ≠ []) (h : '_' ∉ g) (k : Text) :
    isMember g k = true ↔ (split? k).map Prod.fst = some g := by
  unfold isMember
  rw [Option.isSome_iff_exists, Option.map_eq_some_iff]
  constructor
  · rintro ⟨m, hm⟩
    rw [member?_eq_some_iff] at hm
    exact ⟨(g, m), split?_eq_some_iff.2 ⟨ne, h, by rw [join_of_ne_nil ne, hm]⟩, rfl⟩
  · rintro ⟨⟨g', m⟩, hm, rfl⟩
    exact ⟨m, member?_of_split? hm⟩

end Key

/-- The row under its full key. -/
def Row.atFullKey (group : Text) (r : Row) : Row :=
  { r with key := r.fullKey group }

/-- The rows of a document under their full keys. -/
def Document.flat (d : Document) : List Row :=
  d.rows.map fun (key, r) => { r with key }

theorem Document.flat_eq (d : Document) :
    d.flat = d.items.flatMap fun i => i.rows.map (Row.atFullKey i.group) := by
  unfold flat rows
  rw [List.map_flatMap]
  simp only [List.map_map]
  rfl

namespace Document

variable {d : Document}

/-- The row under a full key, with that key. -/
def under? (d : Document) (k : Text) : Option Row :=
  d.flat.find? (·.key == k)

theorem map_key_flat : d.flat.map Row.key = d.rows.map Prod.fst := by
  unfold flat
  rw [List.map_map]
  rfl

/-- If no full key is taken twice, every row is what stands under its own. -/
theorem under?_of_mem (nodup : (d.rows.map Prod.fst).Nodup) {r : Row} (hr : r ∈ d.flat) :
    d.under? r.key = some r := by
  rw [← map_key_flat] at nodup
  unfold under?
  rw [← List.head?_filter, filter_eq_singleton nodup hr]
  rfl

/-- If no full key is taken twice, the entries are what is live under the
    keys. -/
theorem mem_entries_iff (nodup : (d.rows.map Prod.fst).Nodup) {k v : Text} :
    (k, v) ∈ d.entries ↔ ∃ m, d.under? k = some m ∧ m.disabled = false ∧ m.value = v := by
  unfold entries
  constructor
  · intro hm
    obtain ⟨⟨k', r⟩, hr, e⟩ := List.mem_map.1 hm
    obtain ⟨hr, live⟩ := List.mem_filter.1 hr
    obtain ⟨rfl, rfl⟩ := Prod.mk.inj e
    have hf : { r with key := k' } ∈ d.flat :=
      List.mem_map_of_mem (f := fun (key, r) => ({ r with key } : Row)) hr
    exact ⟨_, under?_of_mem nodup hf, by simpa using live, rfl⟩
  · rintro ⟨m, hm, live, rfl⟩
    obtain ⟨⟨k', r⟩, hr, rfl⟩ := List.mem_map.1 (List.mem_of_find?_eq_some hm)
    obtain rfl : k' = k := by simpa using List.find?_some hm
    exact List.mem_map.2 ⟨(k', r), List.mem_filter.2 ⟨hr, by simpa using live⟩, rfl⟩

theorem nodup_entries (nodup : (d.rows.map Prod.fst).Nodup) : (d.entries.map Prod.fst).Nodup := by
  have : d.entries.map Prod.fst = (d.rows.filter fun (_, r) => !r.disabled).map Prod.fst := by
    unfold entries
    rw [List.map_map]
    rfl
  rw [this]
  exact (List.filter_sublist.map _).nodup nodup

end Document

namespace RowSet

variable (s : RowSet) (l : Layout)

theorem nodup_keys : (s.rows.toList.map Row.key).Nodup := by
  refine List.pairwise_map.2 (s.rows.ascending.imp fun {a b} h e => ?_)
  exact Text.precedes_irrefl b.key (e ▸ h)

theorem mem_iff_find? {r : Row} : r ∈ s.rows.toList ↔ s.find? r.key = some r :=
  Catalog.mem_iff_find?

/-- What a block is named after is the group of some row. -/
theorem group_of_mem_blockNames {g : Text} (h : g ∈ s.blockNames l) :
    (∃ r ∈ s.rows.toList, groupOf r = some g) ∧ g ≠ [] ∧ '_' ∉ g := by
  unfold blockNames at h
  obtain ⟨r, hr, hg⟩ := List.mem_filterMap.1 (List.mem_eraseDups.1 (List.mem_filter.1 h).1)
  obtain ⟨⟨g', m⟩, hm, rfl⟩ := Option.map_eq_some_iff.1 hg
  obtain ⟨ne, hu, -⟩ := Key.of_split? hm
  exact ⟨⟨r, hr, hg⟩, ne, hu⟩

theorem nodup_blockNames : (s.blockNames l).Nodup := by
  unfold blockNames
  exact (nodup_eraseDups _).filter _

theorem mem_blockNames_iff {r : Row} (hr : r ∈ s.rows.toList) {g : Text}
    (hg : groupOf r = some g) : g ∈ s.blockNames l ↔ s.formsBlock l g = true := by
  unfold blockNames
  rw [List.mem_filter, List.mem_eraseDups, List.mem_filterMap]
  exact ⟨fun h => h.2, fun h => ⟨⟨r, hr, hg⟩, h⟩⟩

theorem membersOf_eq {g : Text} (ne : g ≠ []) (h : '_' ∉ g) :
    s.membersOf g = s.rows.toList.filter fun r => groupOf r == some g := by
  unfold membersOf groupOf
  refine List.filter_congr fun r _ => ?_
  rw [Bool.eq_iff_iff, Key.isMember_iff ne h, beq_iff_eq]

theorem looseRows_eq :
    s.looseRows l =
      s.rows.toList.filter fun r => !(groupOf r).any (s.blockNames l).contains := by
  unfold looseRows
  refine List.filter_congr fun r hr => ?_
  cases hg : groupOf r with
  | none => rfl
  | some g =>
    have := s.mem_blockNames_iff l hr hg
    rw [← List.contains_iff_mem] at this
    simp only [Option.any_some]
    rw [Bool.eq_iff_iff.2 this]

/-- A member under its full key is the row that it was made of. -/
theorem atFullKey_asMember {g : Text} (ne : g ≠ []) {r : Row} (h : Key.isMember g r.key = true) :
    (asMember g r).atFullKey g = r := by
  obtain ⟨m, hm⟩ := Option.isSome_iff_exists.1 h
  have hk := Key.member?_eq_some_iff.1 hm
  unfold Row.atFullKey Row.fullKey asMember
  rw [hm, Option.getD_some, Key.join_of_ne_nil ne, hk]

theorem blockOf_flat {g : Text} (ne : g ≠ []) :
    (s.blockOf g).rows.map (Row.atFullKey g) = s.membersOf g := by
  unfold blockOf
  rw [List.map_map]
  refine (List.map_congr_left fun r hr => ?_).trans (List.map_id _)
  exact atFullKey_asMember ne (List.mem_filter.1 hr).2

/-- Arranging keeps every row, under its full key, and adds none. -/
theorem flat_arrange : (s.arrange l).flat.Perm s.rows.toList := by
  have loose : ((s.looseRows l).map Item.row).flatMap
      (fun i => i.rows.map (Row.atFullKey i.group)) = s.looseRows l := by
    rw [List.flatMap_map]
    exact List.flatMap_singleton' _
  have blocks : ((s.blockNames l).map fun g => Item.block (s.blockOf g)).flatMap
      (fun i => i.rows.map (Row.atFullKey i.group)) =
      (s.blockNames l).flatMap fun g => s.rows.toList.filter fun r => groupOf r == some g := by
    rw [List.flatMap_map]
    refine List.flatMap_congr fun g hg => ?_
    obtain ⟨-, ne, hu⟩ := s.group_of_mem_blockNames l hg
    rw [← s.membersOf_eq ne hu]
    exact s.blockOf_flat ne
  -- sorting only permutes; a row is loose, or a member of exactly one block
  rw [Document.flat_eq]
  refine ((sortOn_perm _).flatMap_right _).trans ?_
  rw [List.flatMap_append, loose, blocks, s.looseRows_eq l]
  exact perm_filter_append_flatMap groupOf (s.nodup_blockNames l) _

/-! ## Blocks and their titles -/

/-- A member of a group names it. -/
theorem groupOf_of_mem_membersOf {g : Text} (ne : g ≠ []) (h : '_' ∉ g) {r : Row}
    (hr : r ∈ s.membersOf g) : groupOf r = some g := by
  rw [s.membersOf_eq ne h] at hr
  simpa using (List.mem_filter.1 hr).2

theorem mem_items_arrange_block {b : Block} :
    Item.block b ∈ (s.arrange l).items ↔ ∃ g ∈ s.blockNames l, s.blockOf g = b := by
  unfold arrange Document.sort
  rw [(sortOn_perm _).mem_iff, List.mem_append]
  simp

theorem mem_items_arrange_row {r : Row} :
    Item.row r ∈ (s.arrange l).items ↔ r ∈ s.looseRows l := by
  unfold arrange Document.sort
  rw [(sortOn_perm _).mem_iff, List.mem_append]
  simp

/-- The title of a block stood above one of its rows. -/
theorem titleOf_mem {rows : List Row} (h : s.titleOf rows ≠ []) :
    ∃ r ∈ rows, s.banner? r.key = some (s.titleOf rows) := by
  unfold titleOf at h ⊢
  cases hf : (rows.filterMap fun r => s.banner? r.key).find? (!·.isEmpty) with
  | none => exact absurd (by rw [hf]; rfl) h
  | some t => exact List.mem_filterMap.1 (List.mem_of_find?_eq_some hf)

/-- The first member with a banner gives the title. -/
theorem titleOf_cons {r : Row} {rows : List Row} {b : Text} (hb : s.banner? r.key = some b)
    (ne : b ≠ []) : s.titleOf (r :: rows) = b := by
  have hcons : ((r :: rows).filterMap fun r => s.banner? r.key) =
      b :: rows.filterMap fun r => s.banner? r.key :=
    List.filterMap_cons_some (f := fun r : Row => s.banner? r.key) hb
  have hne : (!b.isEmpty) = true := by simpa using ne
  unfold titleOf
  rw [hcons, List.find?_cons_of_pos (p := fun b : Text => !b.isEmpty) hne]
  rfl

/-- What holds of every banner, and of the empty text, holds of the titles of
    blocks. -/
theorem title_of_banners {P : Text → Prop} (empty : P [])
    (banners : ∀ k t, s.banner? k = some t → P t) {b : Block}
    (hb : Item.block b ∈ (s.arrange l).items) : P b.comment := by
  obtain ⟨g, -, rfl⟩ := (s.mem_items_arrange_block l).1 hb
  show P (s.titleOf (s.membersOf g))
  by_cases ht : s.titleOf (s.membersOf g) = []
  · rw [ht]
    exact empty
  · obtain ⟨r, -, hr⟩ := s.titleOf_mem ht
    exact banners _ _ hr

theorem mem_flat_arrange_iff {r : Row} : r ∈ (s.arrange l).flat ↔ s.find? r.key = some r := by
  rw [(s.flat_arrange l).mem_iff, s.mem_iff_find?]

/-- No two rows of the document have one full key. -/
theorem nodup_keys_arrange : ((s.arrange l).rows.map Prod.fst).Nodup := by
  have h := ((s.flat_arrange l).map Row.key).nodup_iff.2 s.nodup_keys
  unfold Document.flat at h
  rw [List.map_map] at h
  exact h

theorem exists_mem_rows_arrange {k : Text} {m : Row} (h : s.find? k = some m) :
    ∃ r, (k, r) ∈ (s.arrange l).rows ∧ { r with key := k } = m := by
  have key : m.key = k := Catalog.key_eq_of_find? h
  obtain ⟨⟨k', r⟩, hr, rfl⟩ := List.mem_map.1 ((s.mem_flat_arrange_iff l).2 (key ▸ h))
  exact ⟨r, key ▸ hr, by rw [← key]⟩

/-- What stands under a key of the arranged rows is the row of that key. -/
theorem under?_arrange (k : Text) : (s.arrange l).under? k = s.find? k := by
  unfold Document.under?
  cases h : s.find? k with
  | none =>
    refine List.find?_eq_none.2 fun r hr hk => ?_
    have hf := (s.mem_flat_arrange_iff l).1 hr
    rw [beq_iff_eq.1 hk, h] at hf
    cases hf
  | some m =>
    obtain rfl : m.key = k := Catalog.key_eq_of_find? h
    have nodup := s.nodup_keys_arrange l
    rw [← Document.map_key_flat] at nodup
    rw [← List.head?_filter, filter_eq_singleton nodup ((s.mem_flat_arrange_iff l).2 h)]
    rfl

/-- The entries of the document are the live rows of the row set. -/
theorem mem_entries_arrange {k v : Text} :
    (k, v) ∈ (s.arrange l).entries ↔
      ∃ m, s.find? k = some m ∧ m.disabled = false ∧ m.value = v := by
  rw [Document.mem_entries_iff (s.nodup_keys_arrange l), under?_arrange]

/-- No variable has two entries. -/
theorem nodup_entries_arrange : ((s.arrange l).entries.map Prod.fst).Nodup :=
  Document.nodup_entries (s.nodup_keys_arrange l)

end RowSet

end EnvFile
