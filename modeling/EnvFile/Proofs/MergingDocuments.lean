import EnvFile.Proofs.Soundness
import EnvFile.Proofs.Taking

/-! # Merging documents and merging row sets

    Two sources can be merged as row sets and then arranged, or arranged first
    and then merged as documents.  The two ways do not agree on rows that are
    disabled.

    * Merged as documents, a row takes over the value of the later row of its
      key and stays live or disabled as it was (`under?_merge`).
    * Merged as row sets, a live row revives a disabled one, and a disabled
      row leaves the value of a live one alone (`RowSet.supersede`).

    `entries_merge_arrange` says what the entries of the merged documents are,
    and for which row sets they are those of the merged row sets. -/

namespace EnvFile

namespace Document

variable {d e : Document}

/-! ## Item by item -/

/-- `bring` takes items in by the rule `f`. -/
def TakesIn (f : Row → Row → Row) (bring : Document → Item → Document) : Prop :=
  ∀ ⦃d : Document⦄, d.Canonical → d.Normal → ∀ ⦃i : Item⦄, i.Canonical → i.Normal →
    Takes f d i (bring d i)

theorem takesIn_add : TakesIn Row.keep add :=
  fun _ hd hn _ => takes_add hd hn

theorem takesIn_mergeItem : TakesIn Row.merge mergeItem :=
  fun _ hd hn _ => takes_mergeItem hd hn

/-- Items whose full keys are distinct are taken in key by key. -/
theorem TakesIn.under?_foldl {f : Row → Row → Row} {bring : Document → Item → Document}
    (h : TakesIn f bring) (hd : d.Canonical) (hn : d.Normal) {items : List Item}
    (hi : ∀ i ∈ items, i.Canonical ∧ i.Normal)
    (nodup : ((items.flatMap Item.flat).map Row.key).Nodup) :
    (items.foldl bring d).Canonical ∧ (items.foldl bring d).Normal ∧
      ∀ k, (items.foldl bring d).under? k =
        Option.merge f (d.under? k) ((items.flatMap Item.flat).find? (·.key == k)) := by
  induction items generalizing d with
  | nil => exact ⟨hd, hn, fun k => Option.merge_none_right.symm⟩
  | cons i items ih =>
    obtain ⟨hic, hin⟩ := hi i List.mem_cons_self
    have takes := h hd hn hic hin
    rw [List.flatMap_cons, List.map_append] at nodup
    obtain ⟨-, rest, apart⟩ := List.nodup_append.1 nodup
    obtain ⟨canonical, normal, under⟩ :=
      ih takes.canonical takes.normal (fun j hj => hi j (List.mem_cons_of_mem i hj)) rest
    refine ⟨canonical, normal, fun k => ?_⟩
    rw [List.foldl_cons, under, takes.under?, List.flatMap_cons, List.find?_append]
    show Option.merge _ (Option.merge _ _ (i.under? k)) _ = Option.merge _ _ ((i.under? k).or _)
    -- a key of this item is not one of a later item
    cases h : i.under? k with
    | none => rw [Option.merge_none_right, Option.none_or]
    | some r =>
      have hr : r ∈ i.flat ∧ r.key = k :=
        ⟨List.mem_of_find?_eq_some h, by simpa using List.find?_some h⟩
      have hn : (items.flatMap Item.flat).find? (·.key == k) = none := by
        refine List.find?_eq_none.2 fun s hs hk => ?_
        refine apart _ (List.mem_map_of_mem hr.1) _ (List.mem_map_of_mem hs) ?_
        rw [hr.2, beq_iff_eq.1 hk]
      rw [hn, Option.merge_none_right]
      rfl

theorem Canonical.item (h : d.Canonical) {i : Item} (hi : i ∈ d.items) : i.Canonical := by
  cases i with
  | row r => trivial
  | block b => exact h.block hi

/-- Documents are merged key by key. -/
theorem under?_merge (hd : d.Canonical) (hn : d.Normal) (he : e.Canonical) (hen : e.Normal) :
    (d.merge e).Canonical ∧ (d.merge e).Normal ∧
      ∀ k, (d.merge e).under? k = Option.merge Row.merge (d.under? k) (e.under? k) := by
  have nodup := he.keys_nodup
  rw [← map_key_flat, flat_eq] at nodup
  have := takesIn_mergeItem.under?_foldl hd hn (fun i hi => ⟨he.item hi, hen i hi⟩) nodup
  refine ⟨this.1, this.2.1, fun k => (this.2.2 k).trans ?_⟩
  unfold under?
  rw [flat_eq e]
  rfl

end Document

namespace RowSet

variable {s t : RowSet} {l : Layout}

/-! ## Arranged row sets are canonical -/

/-- A row of a group with a block is not loose. -/
theorem not_loose_of_mem_blockNames {r : Row} (hr : r ∈ s.looseRows l) {g : Text}
    (hg : g ∈ s.blockNames l) : groupOf r ≠ some g := by
  intro e
  rw [s.looseRows_eq l] at hr
  have := (List.mem_filter.1 hr).2
  rw [e, Option.any_some, List.contains_iff_mem.2 hg] at this
  cases this

theorem blocks_arrange_perm :
    ((s.arrange l).blocks.map Block.name).Perm (s.blockNames l) := by
  have loose : ((s.looseRows l).map Item.row).filterMap Item.block? = [] := by
    rw [List.filterMap_map]
    exact List.filterMap_eq_nil_iff.2 fun _ _ => rfl
  have named : ((s.blockNames l).map fun g => Item.block (s.blockOf g)).filterMap Item.block? =
      (s.blockNames l).map s.blockOf := by
    rw [List.filterMap_map]
    exact congrFun (List.filterMap_eq_map (f := s.blockOf)) _
  have sorted : (s.arrange l).items.Perm ((s.looseRows l).map Item.row ++
      (s.blockNames l).map fun g => Item.block (s.blockOf g)) := sortOn_perm _
  have perm := sorted.filterMap Item.block?
  rw [List.filterMap_append, loose, named, List.nil_append] at perm
  have := perm.map Block.name
  rwa [List.map_map, show Block.name ∘ s.blockOf = id from rfl, List.map_id] at this

/-- In normal form no member key begins with an underscore, as one stands in
    front of it. -/
theorem head?_asMember (h : s.Normal) {r : Row} (hr : r ∈ s.rows.toList) {g : Text}
    (hg : groupOf r = some g) : (asMember g r).key.head? ≠ some '_' := by
  obtain ⟨⟨g', m⟩, hm, rfl⟩ := Option.map_eq_some_iff.1 hg
  obtain ⟨ne, plain, hk⟩ := Key.of_split? hm
  have hn := h r hr
  rw [← hk, Key.join_of_ne_nil ne, Key.normalize_append_underscore_iff plain] at hn
  unfold asMember
  rw [Key.member?_of_split? hm]
  exact hn.2.2

/-- Arranging makes a canonical document. -/
theorem canonical_arrange (h : s.Normal) (l : Layout) :
    (s.arrange l).Canonical ∧ (s.arrange l).Normal := by
  have block : ∀ b ∈ (s.arrange l).blocks,
      ∃ g, s.blockOf g = b ∧ g ∈ s.blockNames l ∧ g ≠ [] ∧ '_' ∉ g := by
    intro b hb
    obtain ⟨g, hg, e⟩ := (s.mem_items_arrange_block l).1 (mem_blocks_iff.1 hb)
    exact ⟨g, e, hg, (s.group_of_mem_blockNames l hg).2⟩
  refine ⟨⟨fun b hb => ?_, fun b hb r hr => ?_, ?_, s.nodup_keys_arrange l, fun b hb r hr hp => ?_⟩,
    (All.arrange (D := True) (show s.All _ from h) Row.lasting_normal l).normal⟩
  · obtain ⟨g, rfl, -, name⟩ := block b hb
    exact name
  · obtain ⟨g, rfl, -, ne, plain⟩ := block b hb
    obtain ⟨m, hm, rfl⟩ := List.mem_map.1 hr
    exact head?_asMember h (List.mem_filter.1 hm).1 (s.groupOf_of_mem_membersOf ne plain hm)
  · exact blocks_arrange_perm.nodup_iff.2 (s.nodup_blockNames l)
  · obtain ⟨g, rfl, hg, ne, plain⟩ := block b hb
    have loose := (s.mem_items_arrange_row l).1 (mem_looseRows_iff.1 hr)
    refine not_loose_of_mem_blockNames loose hg ?_
    exact (Key.isMember_iff ne plain r.key).1 (Key.append_underscore_prefix_iff.1 hp)

/-! ## Where the two ways of merging agree -/

/-- What a variable is worth in a document: the value of its row if that is
    live. -/
def worth (o : Option Row) : Option Text :=
  o.bind fun r => if r.disabled then none else some r.value

theorem worth_eq_some_iff {o : Option Row} {v : Text} :
    worth o = some v ↔ ∃ m, o = some m ∧ m.disabled = false ∧ m.value = v := by
  cases o with
  | none => simp [worth]
  | some r => cases hr : r.disabled <;> simp [worth, hr]

/-- Two rows of one variable that both ways of merging treat alike: either
    both are live or both disabled, or a disabled row comes later and brings
    the value that the live one has. -/
def Agree (earlier later : Row) : Prop :=
  earlier.disabled = later.disabled ∨ earlier.disabled = false ∧ earlier.value = later.value

instance (a b : Row) : Decidable (Agree a b) :=
  inferInstanceAs (Decidable (_ ∨ _))

/-- Documents keep the state of the earlier row and take the value of the
    later. -/
theorem worth_merge (a b : Row) :
    worth (some (a.merge b)) = if a.disabled then none else some b.value := by
  simp [worth]

/-- Row sets let a live row win over a disabled one, and the later of two rows
    in one state. -/
theorem worth_supersede (a b : Row) :
    worth (some (supersede a b)) =
      if b.disabled then if a.disabled then none else some a.value else some b.value := by
  unfold supersede
  cases ha : a.disabled <;> cases hb : b.disabled <;> simp [worth, ha, hb]

/-- One variable, two sources. -/
theorem worth_merge_eq_iff (o p : Option Row) :
    worth (Option.merge Row.merge o p) = worth (overlay o p) ↔
      ∀ a b, o = some a → p = some b → Agree a b := by
  cases o with
  | none => cases p <;> simp [overlay]
  | some a =>
    cases p with
    | none => simp [overlay]
    | some b =>
      have pair : worth (some (a.merge b)) = worth (some (supersede a b)) ↔ Agree a b := by
        rw [worth_merge, worth_supersede]
        unfold Agree
        cases a.disabled <;> cases b.disabled <;> simp [eq_comm]
      simpa [overlay] using pair

/-- The documents of two row sets, merged: every variable has the value of the
    later set if that mentions it, and is live if the earlier set has it live
    or does not mention it.  These are the entries of the merged row sets
    exactly if no variable is disabled on one side and live on the other, but
    for disabled rows that repeat a live value. -/
theorem entries_merge_arrange (hs : s.Normal) (ht : t.Normal) (l l' l'' : Layout) :
    let merged := (s.arrange l).merge (t.arrange l')
    (merged.entries.map Prod.fst).Nodup ∧
      (∀ k v, (k, v) ∈ merged.entries ↔
        ∃ m, Option.merge Row.merge (s.find? k) (t.find? k) = some m ∧
          m.disabled = false ∧ m.value = v) ∧
      ((∀ k v, (k, v) ∈ merged.entries ↔ (k, v) ∈ ((s.merge t).arrange l'').entries) ↔
        ∀ k a b, s.find? k = some a → t.find? k = some b → Agree a b) := by
  intro merged
  obtain ⟨hsc, hsn⟩ := canonical_arrange hs l
  obtain ⟨htc, htn⟩ := canonical_arrange ht l'
  obtain ⟨canonical, -, under⟩ := Document.under?_merge hsc hsn htc htn
  have mem : ∀ k v, (k, v) ∈ merged.entries ↔
      ∃ m, Option.merge Row.merge (s.find? k) (t.find? k) = some m ∧
        m.disabled = false ∧ m.value = v := by
    intro k v
    rw [Document.mem_entries_iff canonical.keys_nodup, under, under?_arrange, under?_arrange]
  refine ⟨Document.nodup_entries canonical.keys_nodup, mem, ?_⟩
  -- both sides say what every variable is worth
  have both : (∀ k v, (k, v) ∈ merged.entries ↔ (k, v) ∈ ((s.merge t).arrange l'').entries) ↔
      ∀ k, worth (Option.merge Row.merge (s.find? k) (t.find? k)) =
        worth (overlay (s.find? k) (t.find? k)) := by
    refine forall_congr' fun k => ?_
    rw [Option.ext_iff]
    refine forall_congr' fun v => ?_
    rw [mem, mem_entries_arrange, find?_merge, ← worth_eq_some_iff, ← worth_eq_some_iff]
  rw [both]
  exact forall_congr' fun k => worth_merge_eq_iff _ _

/-- The condition at work: a live variable, one that is disabled on both
    sides, and a disabled repetition of a live value. -/
theorem entries_merge_arrange_agreeing :
    let row (key value : String) : Row := { key := key.toList, value := value.toList }
    let s := ofRows [row "APP_ENV" "dev", (row "DEBUG" "0").setDisabled true, row "PORT" "80"]
    let t := ofRows [row "APP_ENV" "prod", row "APP_NAME" "web", (row "DEBUG" "1").setDisabled true,
      (row "PORT" "80").setDisabled true]
    s.Normal ∧ t.Normal ∧
      (∀ k v, (k, v) ∈ ((s.arrange {}).merge (t.arrange {})).entries ↔
        (k, v) ∈ ((s.merge t).arrange {}).entries) ∧
      ("APP_ENV".toList, "prod".toList) ∈ ((s.arrange {}).merge (t.arrange {})).entries := by
  intro row s t
  have hs : s.Normal := by decide +kernel
  have ht : t.Normal := by decide +kernel
  obtain ⟨-, mem, agree⟩ := entries_merge_arrange hs ht {} {} {}
  refine ⟨hs, ht, agree.2 fun k a b ha hb => ?_,
    (mem _ _).2 (worth_eq_some_iff.1 (by decide +kernel))⟩
  have all : ∀ a ∈ s.rows.toList, ∀ b ∈ t.rows.toList, a.key = b.key → Agree a b := by
    decide +kernel
  obtain rfl := key_of_find? ha
  have hk := key_of_find? hb
  exact all a (s.mem_iff_find?.2 ha) b (t.mem_iff_find?.2 (hk ▸ hb)) hk.symm

/-- A variable that is disabled in the earlier source and live in the later one
    has an entry if the sources are merged as row sets, and none if they are
    merged as documents.  Where the earlier one is live and the later one is
    not, the entry of the documents has the disabled value. -/
theorem entries_merge_arrange_ne :
    let live : Row := { key := "DEBUG".toList, value := "true".toList }
    let disabled : Row := { key := "DEBUG".toList, value := "false".toList, disabled := true }
    let documents (a b : Row) := (((ofRows [a]).arrange {}).merge ((ofRows [b]).arrange {})).entries
    let rowSets (a b : Row) := (((ofRows [a]).merge (ofRows [b])).arrange {}).entries
    live.Sound ∧ disabled.Sound ∧
      documents disabled live = [] ∧ rowSets disabled live = [("DEBUG".toList, "true".toList)] ∧
      documents live disabled = [("DEBUG".toList, "false".toList)] ∧
      rowSets live disabled = [("DEBUG".toList, "true".toList)] := by
  decide +kernel

end RowSet

end EnvFile
