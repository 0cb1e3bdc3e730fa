import EnvFile.Proofs.Replacing

/-! # Editing and removing a row

    A caller edits or removes the row of a full key.  In a canonical document
    that changes what stands under this key and nothing else: no other row, no
    title, and no block comes or goes (`modify_changes`, `erase_changes`). -/

namespace EnvFile

namespace Block

/-- What stands at the head of a block: its name and its comment. -/
def heading (b : Block) : Text × Text :=
  (b.name, b.comment)

/-- Only the keys of its rows matter for what a block may hold. -/
theorem Canonical.of_keys {b c : Block} (h : b.Canonical) (name : c.name = b.name)
    (keys : (c.rows.map Row.key).Sublist (b.rows.map Row.key)) : c.Canonical where
  name := name ▸ h.name
  members r hr := by
    obtain ⟨s, hs, e⟩ := List.mem_map.1 (keys.subset (List.mem_map_of_mem hr))
    exact e ▸ h.members s hs
  distinct := keys.nodup h.distinct

theorem normal_of_keys {b c : Block} (h : (Item.block b).Normal) (name : c.name = b.name)
    (keys : (c.rows.map Row.key).Sublist (b.rows.map Row.key)) : (Item.block c).Normal := by
  refine ⟨?_, fun r hr => ?_⟩
  · show Key.normalize c.name = c.name
    exact name ▸ h.1
  · obtain ⟨s, hs, e⟩ := List.mem_map.1 (keys.subset (List.mem_map_of_mem hr))
    exact e ▸ h.2 s hs

end Block

/-- Only the keys of its rows matter for what a family of loose rows may
    hold. -/
theorem gathered_of_keys {c : Family} {rows rows' : List Row}
    (family : ∀ r ∈ rows, Key.family r.key = c) (normal : ∀ r ∈ rows, Key.normalize r.key = r.key)
    (nodup : (rows.map Row.key).Nodup)
    (keys : (rows'.map Row.key).Sublist (rows.map Row.key)) :
    Gathered c (rows'.map Item.row) := by
  have mem : ∀ r ∈ rows', ∃ s ∈ rows, s.key = r.key :=
    fun r hr => List.mem_map.1 (keys.subset (List.mem_map_of_mem hr))
  refine .loose (fun r hr => ?_) (fun r hr => ?_) (keys.nodup nodup)
  · obtain ⟨s, hs, e⟩ := mem r hr
    exact e ▸ family s hs
  · obtain ⟨s, hs, e⟩ := mem r hr
    exact e ▸ normal s hs

namespace Document

variable {d d' : Document} {k : Text}

/-- Nothing but what stands under the key `k` is another in `d'` than in
    `d`. -/
structure Changes (d : Document) (k : Text) (d' : Document) : Prop where
  canonical : d'.Canonical
  normal : d'.Normal
  under? : ∀ l, l ≠ k → d'.under? l = d.under? l
  others : d'.others (Key.family k) = d.others (Key.family k)
  headings : d'.blocks.map Block.heading = d.blocks.map Block.heading

theorem Replaced.changes {items : List Item} (h : d.Replaced (Key.family k) items d')
    (hd : d.Canonical) (hn : d.Normal) (gathered : Gathered (Key.family k) items)
    (under? : ∀ l, l ≠ k → Key.family l = Key.family k → under? { items } l = d.under? l)
    (headings : d'.blocks.map Block.heading = d.blocks.map Block.heading) : Changes d k d' := by
  have hd' := h.canonical hd hn gathered
  refine ⟨hd'.1, hd'.2, fun l hl => ?_, h.others, headings⟩
  by_cases hf : Key.family l = Key.family k
  · rw [h.under?_of_family hd'.1 hf, under? l hl hf]
  · exact h.under?_ne hd hd'.1 hf

theorem map_heading_blocks (d : Document) :
    d.blocks.map Block.heading = d.items.filterMap fun i => i.block?.map Block.heading :=
  List.map_filterMap

theorem headings_modifyNamed (d : Document) (g : Text) {change : Block → Block}
    (h : ∀ b, (change b).heading = b.heading) :
    (d.modifyNamed g change).blocks.map Block.heading = d.blocks.map Block.heading := by
  rw [map_heading_blocks, map_heading_blocks]
  refine filterMap_updateFirst (fun i hi => ?_) _
  cases i with
  | row r => cases hi
  | block b => exact congrArg some (h b)

theorem Replaced.found {items : List Item} (h : d.Replaced (Key.family k) items d') :
    d'.find? k = find? { items } k := by
  rw [find?_part]
  exact congrArg (fun items => find? { items } k) h.part

/-- A change within the block in charge of a key, which leaves its other
    members alone. -/
theorem Replaced.changes_block {b b' : Block} {m : Text}
    (h : d.Replaced (Key.family k) [.block b'] d') (hd : d.Canonical) (hn : d.Normal)
    (hs : Key.split? k = some (b.name, m))
    (hp : d.part (Key.family k) = { items := [.block b] }) (canonical : b.Canonical)
    (normal : (Item.block b).Normal) (name : b'.name = b.name)
    (keys : (b'.rows.map Row.key).Sublist (b.rows.map Row.key))
    (members : ∀ m', m' ≠ m → b'.member? m' = b.member? m')
    (headings : d'.blocks.map Block.heading = d.blocks.map Block.heading) :
    Changes d k d' ∧ d'.find? k = b'.member? m := by
  have hk : Key.family k = .group b'.name := name ▸ Key.family_of_split? hs
  have canonical' := canonical.of_keys name keys
  refine ⟨h.changes hd hn ?_ (fun l hl hlf => ?_) headings, ?_⟩
  · rw [hk]
    exact .block canonical' (Block.normal_of_keys normal name keys)
  · -- another key of the group is that of another member
    obtain ⟨m', hs'⟩ := Key.split?_of_family (hlf.trans (Key.family_of_split? hs))
    have full : ∀ {l m : Text}, Key.split? l = some (b.name, m) → b.name ++ '_' :: m = l := by
      intro l m hs
      rw [← Key.join_of_ne_nil canonical.name.ne_nil]
      exact (Key.of_split? hs).2.2
    have hm : m' ≠ m := by
      rintro rfl
      exact hl ((full hs').symm.trans (full hs))
    rw [under?_of_part_block hd hp hlf, under?_block, ← full hs', Item.under?_block canonical.name]
    have := Item.under?_block canonical'.name m'
    rw [name] at this
    rw [this, members m' hm]
  · rw [h.found, find?_block (name ▸ hs)]

/-- A change within the loose rows of the family of a key, which leaves those
    of other keys alone. -/
theorem Replaced.changes_rows {rows rows' : List Row}
    (h : d.Replaced (Key.family k) (rows'.map Item.row) d') (hd : d.Canonical) (hn : d.Normal)
    (hp : d.part (Key.family k) = { items := rows.map Item.row })
    (family : ∀ r ∈ rows, Key.family r.key = Key.family k)
    (normal : ∀ r ∈ rows, Key.normalize r.key = r.key) (nodup : (rows.map Row.key).Nodup)
    (keys : (rows'.map Row.key).Sublist (rows.map Row.key))
    (others : ∀ l, l ≠ k → rows'.find? (·.key == l) = rows.find? (·.key == l))
    (headings : d'.blocks.map Block.heading = d.blocks.map Block.heading) :
    Changes d k d' ∧ d'.find? k = rows'.find? (·.key == k) := by
  refine ⟨h.changes hd hn (gathered_of_keys family normal nodup keys) (fun l hl hlf => ?_)
    headings, ?_⟩
  · rw [under?_rows, others l hl, under?_of_part_rows hd hp hlf]
  · rw [h.found, find?_rows]

/-- Editing the row of a key. -/
theorem modify_changes (hd : d.Canonical) (hn : d.Normal) (k : Text) {f : Row → Row}
    (hf : ∀ r, (f r).key = r.key) :
    Changes d k (d.modify k f) ∧ (d.modify k f).find? k = (d.find? k).map f ∧
      (d.modify k f).keys = d.keys := by
  have member := fun (b : Block) m m' => Block.member?_modifyMember (b := b) m' (k := m) hf
  rcases hd.part_cases hn (Key.family k) with ⟨b, hk, hp, canonical, normal⟩ |
    ⟨rows, hp, family, normal, nodup⟩
  · obtain ⟨m, hs⟩ := Key.split?_of_family hk
    have hm : d.modify k f = d.modifyNamed b.name (·.modifyMember m f) := by
      unfold modify
      rw [owner?_part, hp, owner?_block hs]
    have replaced : d.Replaced (Key.family k) [.block (b.modifyMember m f)] (d.modify k f) := by
      rw [hm, hk]
      exact replaced_modifyNamed_block (f := (·.modifyMember m f)) rfl (hk ▸ hp) fun _ => rfl
    have keys : (b.modifyMember m f).rows.map Row.key = b.rows.map Row.key :=
      map_updateFirst (fun r _ => hf r) _
    obtain ⟨changes, found⟩ := replaced.changes_block hd hn hs hp canonical normal rfl
      (keys ▸ .refl _) (fun m' hm' => by rw [member, if_neg (Ne.symm hm')])
      (hm ▸ headings_modifyNamed d _ fun _ => rfl)
    refine ⟨changes, ?_, ?_⟩
    · rw [found, member, if_pos rfl, find?_part, hp, find?_block hs]
    · rw [hm]
      refine map_updateFirst (fun i hi => ?_) _
      cases i <;> rfl
  · have hm : d.modify k f = d.modifyLoose k f := by
      unfold modify
      rw [owner?_part, hp, owner?_rows]
    have replaced := d.replaced_modifyLoose k hf
    rw [hp, updateFirst_map (q := (·.key == k)) (e := f) Item.row (fun _ => rfl) fun _ => rfl,
      ← hm] at replaced
    have keys : (updateFirst (·.key == k) f rows).map Row.key = rows.map Row.key :=
      map_updateFirst (fun r _ => hf r) _
    have headings : (d.modify k f).blocks.map Block.heading = d.blocks.map Block.heading := by
      rw [hm, map_heading_blocks, map_heading_blocks]
      refine filterMap_updateFirst (fun i hi => ?_) _
      cases i <;> rfl
    obtain ⟨changes, found⟩ := replaced.changes_rows hd hn hp family normal nodup
      (keys ▸ .refl _)
      (fun l hl => (member { name := [], rows } k l).trans (if_neg (Ne.symm hl))) headings
    refine ⟨changes, ?_, ?_⟩
    · rw [found, find?_part, hp, find?_rows]
      exact (member { name := [], rows } k k).trans (if_pos rfl)
    · rw [hm]
      refine map_updateFirst (fun i hi => ?_) _
      cases i with
      | row r => exact hf r
      | block b => rfl

/-- Removing the row of a key. -/
theorem erase_changes (hd : d.Canonical) (hn : d.Normal) (k : Text) :
    Changes d k (d.erase k) ∧ (d.erase k).find? k = none ∧ (d.erase k).keys.Sublist d.keys := by
  rcases hd.part_cases hn (Key.family k) with ⟨b, hk, hp, canonical, normal⟩ |
    ⟨rows, hp, family, normal, nodup⟩
  · obtain ⟨m, hs⟩ := Key.split?_of_family hk
    have he : d.erase k = d.modifyNamed b.name (·.eraseMember m) := by
      unfold erase
      rw [owner?_part, hp, owner?_block hs]
    have replaced : d.Replaced (Key.family k) [.block (b.eraseMember m)] (d.erase k) := by
      rw [he, hk]
      exact replaced_modifyNamed_block (f := (·.eraseMember m)) rfl (hk ▸ hp) fun _ => rfl
    have member := fun m' => Block.member?_eraseMember m' canonical.distinct m
    obtain ⟨changes, found⟩ := replaced.changes_block hd hn hs hp canonical normal rfl
      (List.eraseP_sublist.map _) (fun m' hm' => by rw [member, if_neg (Ne.symm hm')])
      (he ▸ headings_modifyNamed d _ fun _ => rfl)
    refine ⟨changes, ?_, ?_⟩
    · rw [found, member, if_pos rfl]
    · rw [he]
      have : (d.modifyNamed b.name (·.eraseMember m)).keys = d.keys := by
        refine map_updateFirst (fun i hi => ?_) _
        cases i <;> rfl
      exact this ▸ .refl _
  · have he : d.erase k = { items := d.items.eraseP (Item.isRow k) } := by
      unfold erase
      rw [owner?_part, hp, owner?_rows]
    have replaced := d.replaced_eraseLoose k
    rw [hp, List.eraseP_map, ← he] at replaced
    have member := fun l => Block.member?_eraseMember (b := { name := [], rows }) l nodup k
    have headings : (d.erase k).blocks.map Block.heading = d.blocks.map Block.heading := by
      rw [he, map_heading_blocks, map_heading_blocks]
      refine filterMap_eraseP (fun i hi => ?_) _
      cases i with
      | row r => rfl
      | block b => cases hi
    obtain ⟨changes, found⟩ := replaced.changes_rows hd hn hp family normal nodup
      (List.eraseP_sublist.map _) (fun l hl => (member l).trans (if_neg (Ne.symm hl))) headings
    refine ⟨changes, ?_, ?_⟩
    · rw [found]
      exact (member k).trans (if_pos rfl)
    · rw [he]
      exact List.eraseP_sublist.map _

end Document

end EnvFile
