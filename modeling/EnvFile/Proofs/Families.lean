import EnvFile.Document.Merge
import EnvFile.Proofs.Arrangement
import EnvFile.Proofs.CanonicalKey
import EnvFile.Proofs.Members

/-! # Families

    A key belongs to the *family* of the group that it names, or to a family
    of its own if it names none.  So does an item of a document: a block to
    the group that it is named after, a loose row to the family of its key.

    A document is *canonical* if each of its blocks is named after a group and
    no group is spread over a block and loose rows, or over two blocks, and no
    full key is taken twice.  This can be seen family by family
    (`canonical_iff`): the items of a family are one block, or loose rows.
    What stands under a full key is decided by the items of its family alone
    (`under?_part`). -/

namespace EnvFile

/-! ## Keys and their families -/

/-- Keys that belong together: those of a group, or one key alone. -/
inductive Family where
  | group (name : Text)
  | lone (key : Text)
deriving DecidableEq

namespace Key

/-- The name of a group: not empty, and without an underscore. -/
structure IsGroup (g : Text) : Prop where
  ne_nil : g ≠ []
  plain : '_' ∉ g

/-- The family of a key. -/
def family (k : Text) : Family :=
  match split? k with
  | some (g, _) => .group g
  | none => .lone k

theorem family_of_split? {k g m : Text} (h : split? k = some (g, m)) : family k = .group g := by
  unfold family
  rw [h]

theorem family_of_split?_eq_none {k : Text} (h : split? k = none) : family k = .lone k := by
  unfold family
  rw [h]

theorem split?_of_family {k g : Text} (h : family k = .group g) : ∃ m, split? k = some (g, m) := by
  unfold family at h
  split at h
  · rename_i g' m hs
    cases h
    exact ⟨m, hs⟩
  · cases h

theorem isGroup_of_family {k g : Text} (h : family k = .group g) : IsGroup g := by
  obtain ⟨m, hm⟩ := split?_of_family h
  exact ⟨(of_split? hm).1, (of_split? hm).2.1⟩

variable {g : Text}

theorem IsGroup.split?_append (hg : IsGroup g) (m : Text) :
    split? (g ++ '_' :: m) = some (g, m) := by
  rw [← join_of_ne_nil hg.ne_nil]
  exact split?_join hg.ne_nil hg.plain m

theorem IsGroup.family_append (hg : IsGroup g) (m : Text) : family (g ++ '_' :: m) = .group g :=
  family_of_split? (hg.split?_append m)

theorem IsGroup.member?_eq_none {k : Text} (hg : IsGroup g) (h : family k ≠ .group g) :
    member? g k = none := by
  refine Option.eq_none_iff_forall_not_mem.2 fun m hm => h ?_
  rw [← member?_eq_some_iff.1 hm]
  exact hg.family_append m

theorem IsGroup.isMember_iff {k : Text} (hg : IsGroup g) :
    isMember g k = true ↔ family k = .group g := by
  refine ⟨fun h => ?_, fun h => ?_⟩
  · by_contra hne
    unfold isMember at h
    rw [hg.member?_eq_none hne] at h
    cases h
  · obtain ⟨m, hm⟩ := split?_of_family h
    unfold isMember
    rw [member?_of_split? hm]
    rfl

theorem append_underscore_prefix_iff {k : Text} :
    g ++ ['_'] <+: k ↔ isMember g k = true := by
  unfold isMember
  rw [Option.isSome_iff_exists]
  constructor
  · rintro ⟨m, rfl⟩
    exact ⟨m, member?_eq_some_iff.2 (by simp)⟩
  · rintro ⟨m, hm⟩
    exact ⟨m, by rw [← member?_eq_some_iff.1 hm]; simp⟩

end Key

/-! ## Items and what stands under a key -/

namespace Item

/-- The family of an item. -/
def family : Item → Family
  | .row r => Key.family r.key
  | .block b => .group b.name

/-- The rows of an item under their full keys. -/
def flat (i : Item) : List Row :=
  i.rows.map (Row.atFullKey i.group)

/-- The row that an item has under a full key, with that key. -/
def under? (i : Item) (k : Text) : Option Row :=
  i.flat.find? (·.key == k)

/-- The title of an item. -/
def title : Item → Text
  | .row _ => []
  | .block b => b.comment

/-- The keys and names of the item are such as normalising leaves alone. -/
def Normal (i : Item) : Prop :=
  Key.normalize i.key = i.key ∧ ∀ r ∈ i.rows, Key.normalize r.key = r.key

end Item

/-- A block that can stand in a canonical document: it is named after a group,
    no member key begins with an underscore, and none is taken twice. -/
structure Block.Canonical (b : Block) : Prop where
  name : Key.IsGroup b.name
  members : ∀ r ∈ b.rows, r.key.head? ≠ some '_'
  distinct : b.Distinct

/-- An item that can stand in a canonical document. -/
def Item.Canonical : Item → Prop
  | .row _ => True
  | .block b => b.Canonical

instance (g : Text) : Decidable (Key.IsGroup g) :=
  decidable_of_iff (g ≠ [] ∧ '_' ∉ g) ⟨fun ⟨h₁, h₂⟩ => ⟨h₁, h₂⟩, fun ⟨h₁, h₂⟩ => ⟨h₁, h₂⟩⟩

instance (b : Block) : Decidable b.Distinct :=
  inferInstanceAs (Decidable (b.rows.map Row.key).Nodup)

instance (b : Block) : Decidable b.Canonical :=
  decidable_of_iff (Key.IsGroup b.name ∧ (∀ r ∈ b.rows, r.key.head? ≠ some '_') ∧ b.Distinct)
    ⟨fun ⟨h₁, h₂, h₃⟩ => ⟨h₁, h₂, h₃⟩, fun ⟨h₁, h₂, h₃⟩ => ⟨h₁, h₂, h₃⟩⟩

instance : (i : Item) → Decidable i.Canonical
  | .row _ => .isTrue trivial
  | .block b => inferInstanceAs (Decidable b.Canonical)

instance (i : Item) : Decidable i.Normal :=
  inferInstanceAs (Decidable (_ ∧ _))

namespace Document

/-- The items of a family. -/
def part (d : Document) (c : Family) : Document :=
  { items := d.items.filter (·.family == c) }

/-- The items of all other families. -/
def others (d : Document) (c : Family) : List Item :=
  d.items.filter (·.family != c)

/-- Blocks are named after groups, each after another one; no member key
    begins with an underscore; no full key is taken twice; and no loose row is
    one of a group that has a block. -/
structure Canonical (d : Document) : Prop where
  names : ∀ b ∈ d.blocks, b.name ≠ [] ∧ '_' ∉ b.name
  members : ∀ b ∈ d.blocks, ∀ r ∈ b.rows, r.key.head? ≠ some '_'
  blocks_nodup : (d.blocks.map Block.name).Nodup
  keys_nodup : (d.rows.map Prod.fst).Nodup
  apart : ∀ b ∈ d.blocks, ∀ r ∈ d.looseRows, ¬ b.name ++ ['_'] <+: r.key

/-- All keys and names are such as normalising leaves alone. -/
def Normal (d : Document) : Prop :=
  ∀ i ∈ d.items, i.Normal

instance (d : Document) : Decidable d.Canonical :=
  decidable_of_iff
    ((∀ b ∈ d.blocks, b.name ≠ [] ∧ '_' ∉ b.name) ∧
      (∀ b ∈ d.blocks, ∀ r ∈ b.rows, r.key.head? ≠ some '_') ∧
      (d.blocks.map Block.name).Nodup ∧ (d.rows.map Prod.fst).Nodup ∧
      ∀ b ∈ d.blocks, ∀ r ∈ d.looseRows, ¬ b.name ++ ['_'] <+: r.key)
    ⟨fun ⟨h₁, h₂, h₃, h₄, h₅⟩ => ⟨h₁, h₂, h₃, h₄, h₅⟩,
      fun ⟨h₁, h₂, h₃, h₄, h₅⟩ => ⟨h₁, h₂, h₃, h₄, h₅⟩⟩

instance (d : Document) : Decidable d.Normal :=
  inferInstanceAs (Decidable (∀ i ∈ d.items, i.Normal))

end Document

/-- The keys of the rows are such as normalising leaves alone. -/
def RowSet.Normal (s : RowSet) : Prop :=
  ∀ r ∈ s.rows.toList, Key.normalize r.key = r.key

instance (s : RowSet) : Decidable s.Normal :=
  inferInstanceAs (Decidable (∀ r ∈ s.rows.toList, Key.normalize r.key = r.key))

/-- The items of one family in a canonical document: a block, or loose
    rows. -/
inductive Gathered : Family → List Item → Prop where
  | block {b : Block} (canonical : b.Canonical) (normal : (Item.block b).Normal) :
      Gathered (.group b.name) [.block b]
  | loose {c : Family} {rows : List Row} (family : ∀ r ∈ rows, Key.family r.key = c)
      (normal : ∀ r ∈ rows, Key.normalize r.key = r.key) (nodup : (rows.map Row.key).Nodup) :
      Gathered c (rows.map Item.row)

/-! ## Lists of items -/

section Items

variable {items : List Item}

theorem mem_blocks_iff {d : Document} {b : Block} : b ∈ d.blocks ↔ Item.block b ∈ d.items := by
  unfold Document.blocks
  rw [List.mem_filterMap]
  constructor
  · rintro ⟨i, hi, e⟩
    cases i with
    | row r => cases e
    | block c => cases e; exact hi
  · exact fun h => ⟨_, h, rfl⟩

theorem mem_looseRows_iff {d : Document} {r : Row} : r ∈ d.looseRows ↔ Item.row r ∈ d.items := by
  unfold Document.looseRows
  rw [List.mem_filterMap]
  constructor
  · rintro ⟨i, hi, e⟩
    cases i with
    | row s => cases e; exact hi
    | block c => cases e
  · exact fun h => ⟨_, h, rfl⟩

/-- Items that are all rows are rows. -/
theorem map_filterMap_row? (h : ∀ b, Item.block b ∉ items) :
    (items.filterMap Item.row?).map Item.row = items := by
  induction items with
  | nil => rfl
  | cons i items ih =>
    cases i with
    | row r => simpa [Item.row?] using ih fun b hb => h b (List.mem_cons_of_mem _ hb)
    | block b => exact absurd List.mem_cons_self (h b)

theorem filter_isBlock (n : Text) :
    items.filter (Item.isBlock n) =
      ((items.filterMap Item.block?).filter (·.name == n)).map Item.block := by
  induction items with
  | nil => rfl
  | cons i items ih =>
    cases i with
    | row r => simpa [Item.isBlock, Item.block?, List.filterMap_cons] using ih
    | block b =>
      by_cases hb : b.name = n
      · simpa [Item.isBlock, Item.block?, hb] using ih
      · simpa [Item.isBlock, Item.block?, hb] using ih

/-- The rows of an item stand under keys of its family. -/
theorem Item.family_of_mem_flat {i : Item} (hi : ∀ b, i = .block b → Key.IsGroup b.name) {r : Row}
    (hr : r ∈ i.flat) : Key.family r.key = i.family := by
  cases i with
  | row s =>
    obtain rfl : r = s := List.mem_singleton.1 hr
    rfl
  | block b =>
    obtain ⟨s, -, rfl⟩ := List.mem_map.1 hr
    have hg := hi b rfl
    show Key.family (Key.join b.name s.key) = _
    rw [Key.join_of_ne_nil hg.ne_nil]
    exact hg.family_append _

/-- Only the items of its family have a row under a key. -/
theorem filter_flatMap_flat (hi : ∀ b, Item.block b ∈ items → Key.IsGroup b.name) (k : Text) :
    ((items.filter (·.family == Key.family k)).flatMap Item.flat).filter (·.key == k) =
      (items.flatMap Item.flat).filter (·.key == k) := by
  induction items with
  | nil => rfl
  | cons i items ih =>
    have ih := ih fun b hb => hi b (List.mem_cons_of_mem _ hb)
    by_cases hf : i.family = Key.family k
    · rw [List.filter_cons_of_pos (by simpa using hf), List.flatMap_cons, List.flatMap_cons,
        List.filter_append, List.filter_append, ih]
    · have hn : i.flat.filter (·.key == k) = [] := by
        refine List.filter_eq_nil_iff.2 fun r hr hk => hf ?_
        have := Item.family_of_mem_flat (fun b hb => hi b (hb ▸ List.mem_cons_self)) hr
        rw [← this, beq_iff_eq.1 hk]
      rw [List.filter_cons_of_neg (by simpa using hf), List.flatMap_cons, List.filter_append, hn,
        ih, List.nil_append]

end Items

namespace Gathered

theorem nodup {c : Family} {items : List Item} (h : Gathered c items) :
    ((items.flatMap Item.flat).map Row.key).Nodup := by
  cases h with
  | @block b canonical normal =>
    have inj : Function.Injective (Key.join b.name) := by
      intro m m' e
      rw [Key.join_of_ne_nil canonical.name.ne_nil, Key.join_of_ne_nil canonical.name.ne_nil] at e
      simpa using e
    have := canonical.distinct.map inj
    simpa [Item.flat, Item.rows, Item.group, Row.atFullKey, Row.fullKey, Function.comp_def] using this
  | @loose _ rows family normal nodup =>
    have : (rows.map Item.row).flatMap Item.flat = rows := by
      rw [List.flatMap_map]
      exact List.flatMap_singleton' _
    rwa [this]

theorem length_filter_isBlock_le {c : Family} {items : List Item} (h : Gathered c items) (n : Text) :
    (items.filter (Item.isBlock n)).length ≤ 1 := by
  cases h with
  | block => exact List.length_filter_le _ _
  | loose => simp [List.filter_map, Function.comp_def, Item.isBlock]

theorem normal {c : Family} {items : List Item} (h : Gathered c items) {i : Item}
    (hi : i ∈ items) : i.Normal := by
  cases h with
  | block _ normal => exact List.mem_singleton.1 hi ▸ normal
  | loose _ normal _ =>
    obtain ⟨r, hr, rfl⟩ := List.mem_map.1 hi
    exact ⟨normal r hr, by simpa [Item.rows] using normal r hr⟩

/-- A family with a block has nothing else. -/
theorem eq_of_block_mem {c : Family} {items : List Item} (h : Gathered c items) {b : Block}
    (hb : Item.block b ∈ items) :
    items = [.block b] ∧ b.Canonical ∧ (Item.block b).Normal := by
  cases h with
  | block canonical normal =>
    cases List.mem_singleton.1 hb
    exact ⟨rfl, canonical, normal⟩
  | loose => simp at hb

end Gathered

namespace Document

variable {d : Document}

theorem mem_part_iff {c : Family} {i : Item} :
    i ∈ (d.part c).items ↔ i ∈ d.items ∧ i.family = c := by
  unfold part
  rw [List.mem_filter, beq_iff_eq]

/-- What only items of a family satisfy is found among them. -/
theorem filter_part {c : Family} {p : Item → Bool} (hp : ∀ i, p i = true → i.family = c) :
    (d.part c).items.filter p = d.items.filter p := by
  unfold part
  rw [List.filter_filter]
  refine List.filter_congr fun i _ => ?_
  cases hi : p i with
  | true => simp [hp i hi]
  | false => rfl

theorem mem_part {i : Item} (h : i ∈ d.items) : i ∈ (d.part i.family).items :=
  mem_part_iff.2 ⟨h, rfl⟩

/-- What stands under a key is decided by the items of its family. -/
theorem under?_part (hd : ∀ b, Item.block b ∈ d.items → Key.IsGroup b.name) (k : Text) :
    d.under? k = (d.part (Key.family k)).under? k := by
  unfold under?
  rw [← List.head?_filter, ← List.head?_filter, flat_eq, flat_eq]
  exact congrArg List.head? (filter_flatMap_flat hd k).symm

/-! ## Canonical documents, family by family -/

theorem Canonical.isGroup (h : d.Canonical) {b : Block} (hb : Item.block b ∈ d.items) :
    Key.IsGroup b.name :=
  have := h.names b (mem_blocks_iff.2 hb)
  ⟨this.1, this.2⟩

theorem looseRows_keys_sublist : (d.looseRows.map Row.key).Sublist (d.flat.map Row.key) := by
  rw [flat_eq]
  unfold looseRows
  induction d.items with
  | nil => exact .slnil
  | cons i items ih =>
    cases i with
    | row r => simpa [Item.row?, Item.rows, Item.group, Row.atFullKey, Row.fullKey] using ih
    | block b =>
      simp only [List.filterMap_cons, Item.row?, List.flatMap_cons, List.map_append]
      exact ih.trans (List.sublist_append_right _ _)

/-- If no full key is taken twice, no member key of a block is. -/
theorem distinct_of_nodup (nodup : (d.rows.map Prod.fst).Nodup) {b : Block}
    (hb : Item.block b ∈ d.items) : b.Distinct := by
  have hs : ((Item.block b).flat.map Row.key).Nodup := by
    rw [← map_key_flat, flat_eq] at nodup
    have sub : (Item.block b).flat.Sublist (d.items.flatMap Item.flat) :=
      List.sublist_flatten_of_mem (List.mem_map_of_mem hb)
    exact (sub.map Row.key).nodup nodup
  rw [Item.flat, List.map_map] at hs
  exact List.Nodup.of_map (Key.join b.name) (by rw [List.map_map]; exact hs)

theorem Canonical.block (h : d.Canonical) {b : Block} (hb : Item.block b ∈ d.items) :
    b.Canonical :=
  ⟨h.isGroup hb, h.members b (mem_blocks_iff.2 hb), distinct_of_nodup h.keys_nodup hb⟩

theorem Canonical.gathered (h : d.Canonical) (hn : d.Normal) (c : Family) :
    Gathered c (d.part c).items := by
  by_cases hb : ∃ b, Item.block b ∈ (d.part c).items
  · obtain ⟨b, hb⟩ := hb
    obtain ⟨hd, rfl⟩ := mem_part_iff.1 hb
    -- the family of a block has no loose rows, and no second block
    have blocks : ∀ i ∈ d.items, (i.family == .group b.name) = Item.isBlock b.name i := by
      intro i hi
      cases i with
      | row r =>
        have hr : Key.family r.key ≠ .group b.name := by
          intro e
          refine h.apart b (mem_blocks_iff.2 hd) r (mem_looseRows_iff.2 hi) ?_
          rw [Key.append_underscore_prefix_iff, (h.isGroup hd).isMember_iff, e]
        simpa [Item.family, Item.isBlock] using hr
      | block b' =>
        by_cases hb' : b'.name = b.name <;> simp [Item.family, Item.isBlock, hb']
    have : (d.part (.group b.name)).items = [.block b] := by
      show d.items.filter (·.family == .group b.name) = _
      rw [List.filter_congr blocks, filter_isBlock]
      exact congrArg _ (filter_eq_singleton h.blocks_nodup (mem_blocks_iff.2 hd))
    rw [show (Item.block b).family = .group b.name from rfl, this]
    exact .block (h.block hd) (hn _ hd)
  · -- without a block the family is made of loose rows
    have hrows : ∀ b, Item.block b ∉ (d.part c).items := fun b hb' => hb ⟨b, hb'⟩
    have mem : ∀ r ∈ (d.part c).looseRows, Item.row r ∈ d.items ∧ Key.family r.key = c :=
      fun r hr => mem_part_iff.1 (mem_looseRows_iff.1 hr)
    rw [← map_filterMap_row? hrows]
    refine .loose (fun r hr => (mem r hr).2) (fun r hr => (hn _ (mem r hr).1).1) ?_
    have sub : ((d.part c).looseRows.map Row.key).Sublist (d.looseRows.map Row.key) :=
      ((List.filter_sublist (l := d.items)).filterMap Item.row?).map Row.key
    have nodup := h.keys_nodup
    rw [← map_key_flat] at nodup
    exact (sub.trans looseRows_keys_sublist).nodup nodup

/-- A document is canonical and normal exactly if each of its families is
    gathered. -/
theorem canonical_iff : d.Canonical ∧ d.Normal ↔ ∀ c, Gathered c (d.part c).items := by
  refine ⟨fun h c => h.1.gathered h.2 c, fun h => ?_⟩
  have block : ∀ b, Item.block b ∈ d.items →
      (d.part (.group b.name)).items = [.block b] ∧ b.Canonical ∧ (Item.block b).Normal :=
    fun b hb => (h _).eq_of_block_mem (mem_part hb)
  refine ⟨⟨fun b hb => ?_, fun b hb => ?_, ?_, ?_, fun b hb r hr' hp => ?_⟩, fun i hi => ?_⟩
  · have := (block b (mem_blocks_iff.1 hb)).2.1.name
    exact ⟨this.ne_nil, this.plain⟩
  · exact (block b (mem_blocks_iff.1 hb)).2.1.members
  · refine List.nodup_iff_count_le_one.2 fun n => ?_
    have hn : ∀ i, Item.isBlock n i = true → i.family = .group n := by
      intro i hi
      cases i with
      | row r => cases hi
      | block b => exact congrArg Family.group (beq_iff_eq.1 hi)
    have hc : (d.blocks.map Block.name).count n = (d.items.filter (Item.isBlock n)).length := by
      rw [filter_isBlock, List.length_map, List.count_eq_countP, List.countP_map,
        List.countP_eq_length_filter]
      rfl
    rw [hc, ← filter_part hn]
    exact (h _).length_filter_isBlock_le n
  · rw [← map_key_flat]
    refine List.nodup_iff_count_le_one.2 fun k => ?_
    have hc : ∀ l : List Row, (l.map Row.key).count k = (l.filter (·.key == k)).length := by
      intro l
      rw [List.count_eq_countP, List.countP_map, List.countP_eq_length_filter]
      rfl
    rw [hc, flat_eq]
    show ((d.items.flatMap Item.flat).filter _).length ≤ 1
    rw [← filter_flatMap_flat (fun b hb => (block b hb).2.1.name), ← hc]
    exact List.nodup_iff_count_le_one.1 (h _).nodup k
  · have hg := (block b (mem_blocks_iff.1 hb)).2.1.name
    have hr : Key.family r.key = .group b.name :=
      hg.isMember_iff.1 (Key.append_underscore_prefix_iff.1 hp)
    have := mem_part (mem_looseRows_iff.1 hr')
    rw [show (Item.row r).family = .group b.name from hr, (block b (mem_blocks_iff.1 hb)).1] at this
    simp at this
  · exact (h i.family).normal (mem_part hi)

end Document

end EnvFile
