import EnvFile.Proofs.Families

/-! # One family at a time

    Every operation on a document replaces the items of one family and leaves
    all others alone, in their order (`Replaced`).  So it keeps a canonical
    document canonical if the new items of that family are in order, and
    changes nothing that stands under a key of another family.

    In a canonical document the family of a group is one block or loose rows
    (`Canonical.group_cases`), and looking a full key up finds what stands
    under it (`find?_eq`). -/

namespace EnvFile

theorem Row.atFullKey_of_member {g m : Text} (hg : Key.IsGroup g) {r : Row} (h : r.key = m) :
    r.atFullKey g = { r with key := g ++ '_' :: m } := by
  unfold atFullKey fullKey
  rw [Key.join_of_ne_nil hg.ne_nil, h]

theorem Item.under?_block {b : Block} (hg : Key.IsGroup b.name) (m : Text) :
    (Item.block b).under? (b.name ++ '_' :: m) =
      (b.member? m).map fun r => { r with key := b.name ++ '_' :: m } := by
  unfold under? flat Block.member?
  rw [List.find?_map]
  have keys : ((fun r : Row => r.key == b.name ++ '_' :: m) ∘ Row.atFullKey b.name) =
      fun r : Row => r.key == m := by
    funext r
    show (Key.join b.name r.key == _) = _
    rw [Key.join_of_ne_nil hg.ne_nil]
    by_cases hr : r.key = m <;> simp [hr]
  show Option.map (Row.atFullKey b.name) (b.rows.find? _) = _
  rw [show (Item.block b).group = b.name from rfl, keys]
  refine Option.map_congr fun r hr => ?_
  exact Row.atFullKey_of_member hg (by simpa using List.find?_some hr)

theorem Item.under?_eq_none {i : Item} (hi : ∀ b, i = .block b → Key.IsGroup b.name) {k : Text}
    (h : Key.family k ≠ i.family) : i.under? k = none := by
  refine List.find?_eq_none.2 fun r hr e => h ?_
  rw [← Item.family_of_mem_flat hi hr, beq_iff_eq.1 e]

theorem Item.Canonical.isGroup {i : Item} (h : i.Canonical) (b : Block) (e : i = .block b) :
    Key.IsGroup b.name := by
  subst e
  exact Block.Canonical.name h

namespace Document

theorem under?_block (b : Block) (k : Text) :
    under? { items := [.block b] } k = (Item.block b).under? k := by
  unfold under? Item.under?
  rw [flat_eq]
  simp [Item.flat]

theorem under?_rows (rows : List Row) (k : Text) :
    under? { items := rows.map Item.row } k = rows.find? (·.key == k) := by
  have : flat { items := rows.map Item.row } = rows := by
    rw [flat_eq, List.flatMap_map]
    exact List.flatMap_singleton' _
  unfold under?
  rw [this]

variable {d d' : Document} {c : Family} {items : List Item}

/-! ## Replacing a family -/

/-- `d'` is `d` with other items in one family; all items of other families
    are as they were, in the same order. -/
structure Replaced (d : Document) (c : Family) (items : List Item) (d' : Document) : Prop where
  part : (d'.part c).items = items
  others : d'.others c = d.others c

namespace Replaced

theorem part_ne (h : d.Replaced c items d') {c' : Family} (ne : c' ≠ c) : d'.part c' = d.part c' := by
  have through : ∀ e : Document, e.part c' = { items := (e.others c).filter (·.family == c') } := by
    intro e
    unfold Document.part Document.others
    rw [List.filter_filter]
    refine congrArg Document.mk (List.filter_congr fun i _ => ?_)
    by_cases hi : i.family = c' <;> simp [hi, ne]
  rw [through d', through d, h.others]

theorem canonical (h : d.Replaced c items d') (hd : d.Canonical) (hn : d.Normal)
    (hi : Gathered c items) : d'.Canonical ∧ d'.Normal := by
  refine canonical_iff.2 fun c' => ?_
  by_cases hc : c' = c
  · subst hc
    rw [h.part]
    exact hi
  · rw [h.part_ne hc]
    exact hd.gathered hn c'

theorem under?_ne (h : d.Replaced c items d') (hd : d.Canonical) (hd' : d'.Canonical) {k : Text}
    (ne : Key.family k ≠ c) : d'.under? k = d.under? k := by
  rw [under?_part (fun _ => hd'.isGroup), under?_part (fun _ => hd.isGroup), h.part_ne ne]

theorem under?_of_family (h : d.Replaced c items d') (hd' : d'.Canonical) {k : Text}
    (e : Key.family k = c) : d'.under? k = under? { items } k := by
  rw [under?_part (fun _ => hd'.isGroup), e, ← h.part]

end Replaced

/-! ## Looking into a family -/

theorem family_of_isBlock {g : Text} {i : Item} (h : Item.isBlock g i = true) :
    i.family = .group g := by
  cases i with
  | row r => cases h
  | block b => exact congrArg Family.group (beq_iff_eq.1 h)

theorem family_of_isRow {k : Text} {i : Item} (h : Item.isRow k i = true) :
    i.family = Key.family k := by
  cases i with
  | row r => exact congrArg Key.family (beq_iff_eq.1 h)
  | block b => cases h

theorem named?_part (d : Document) (g : Text) :
    d.named? g = (d.part (.group g)).named? g := by
  unfold named?
  rw [← List.head?_filter, ← List.head?_filter, filter_part fun _ => family_of_isBlock]

theorem loose?_part (d : Document) (k : Text) :
    d.loose? k = (d.part (Key.family k)).loose? k := by
  unfold loose?
  rw [← List.head?_filter, ← List.head?_filter, filter_part fun _ => family_of_isRow]

theorem looseIn_part (d : Document) {g : Text} (hg : Key.IsGroup g) :
    d.looseIn g = (d.part (.group g)).looseRows := by
  unfold looseIn looseRows part
  induction d.items with
  | nil => rfl
  | cons i items ih =>
    cases i with
    | block b =>
      by_cases hb : b.name = g <;>
        simpa [List.filterMap_cons, List.filter_cons, Item.row?, Item.family, hb] using ih
    | row r =>
      by_cases hr : Key.family r.key = .group g
      · simpa [List.filterMap_cons, List.filter_cons, Item.row?, Item.family, hr,
          hg.isMember_iff.2 hr] using ih
      · have hm : Key.isMember g r.key = false := by
          simpa using fun h => hr (hg.isMember_iff.1 h)
        simpa [List.filterMap_cons, List.filter_cons, Item.row?, Item.family, hr, hm] using ih

theorem named?_block (b : Block) : named? { items := [.block b] } b.name = some b := by
  simp [named?, Item.isBlock, Item.block?]

theorem named?_rows (rows : List Row) (g : Text) :
    named? { items := rows.map Item.row } g = none := by
  unfold named?
  rw [List.find?_eq_none.2]
  · rfl
  · intro i hi
    obtain ⟨r, -, rfl⟩ := List.mem_map.1 hi
    simp [Item.isBlock]

theorem loose?_rows (rows : List Row) (k : Text) :
    loose? { items := rows.map Item.row } k = rows.find? (·.key == k) := by
  unfold loose?
  rw [List.find?_map]
  show ((rows.find? fun r => r.key == k).map Item.row).bind Item.row? = _
  cases rows.find? fun r => r.key == k <;> rfl

theorem looseRows_rows (rows : List Row) :
    looseRows { items := rows.map Item.row } = rows := by
  unfold looseRows
  rw [List.filterMap_map]
  exact List.filterMap_some

/-- In a canonical document a family is one block, or loose rows. -/
theorem Canonical.part_cases (h : d.Canonical) (hn : d.Normal) (c : Family) :
    (∃ b, c = .group b.name ∧ d.part c = { items := [.block b] } ∧ b.Canonical ∧
        (Item.block b).Normal) ∨
      ∃ rows : List Row, d.part c = { items := rows.map Item.row } ∧
        (∀ r ∈ rows, Key.family r.key = c) ∧ (∀ r ∈ rows, Key.normalize r.key = r.key) ∧
        (rows.map Row.key).Nodup := by
  have hp := h.gathered hn c
  generalize d.part c = p at hp
  obtain ⟨items⟩ := p
  cases hp with
  | block canonical normal => exact .inl ⟨_, rfl, rfl, canonical, normal⟩
  | loose family normal nodup => exact .inr ⟨_, rfl, family, normal, nodup⟩

/-- A group has one block and no loose rows, or loose rows and no block. -/
theorem Canonical.group_cases (h : d.Canonical) (hn : d.Normal) {g : Text} (hg : Key.IsGroup g) :
    (∃ b, b.name = g ∧ d.part (.group g) = { items := [.block b] } ∧ d.named? g = some b ∧
        b.Canonical ∧ (Item.block b).Normal) ∨
      ∃ rows : List Row, d.part (.group g) = { items := rows.map Item.row } ∧ d.named? g = none ∧
        d.looseIn g = rows ∧ (∀ r ∈ rows, Key.family r.key = .group g) ∧
        (∀ r ∈ rows, Key.normalize r.key = r.key) ∧ (rows.map Row.key).Nodup := by
  have named := d.named?_part g
  have loose := d.looseIn_part hg
  rcases h.part_cases hn (.group g) with ⟨b, e, hp, canonical, normal⟩ | ⟨rows, hp, rest⟩
  · cases e
    rw [hp, named?_block] at named
    exact .inl ⟨b, rfl, hp, named, canonical, normal⟩
  · rw [hp, named?_rows] at named
    rw [hp, looseRows_rows] at loose
    exact .inr ⟨rows, hp, named, loose, rest⟩

theorem owner?_part (d : Document) (k : Text) :
    d.owner? k = (d.part (Key.family k)).owner? k := by
  unfold owner?
  cases hs : Key.split? k with
  | none => rfl
  | some gm =>
    simp only [Option.bind_some]
    rw [named?_part, Key.family_of_split? hs]

/-- A look-up stays within the family of the key. -/
theorem find?_part (d : Document) (k : Text) : d.find? k = (d.part (Key.family k)).find? k := by
  unfold find?
  rw [owner?_part, loose?_part]

theorem owner?_block {b : Block} {k m : Text} (hs : Key.split? k = some (b.name, m)) :
    owner? { items := [.block b] } k = some (b, m) := by
  unfold owner?
  rw [hs]
  simp only [Option.bind_some]
  rw [named?_block]
  rfl

theorem owner?_rows (rows : List Row) (k : Text) :
    owner? { items := rows.map Item.row } k = none := by
  unfold owner?
  cases hs : Key.split? k with
  | none => rfl
  | some gm =>
    simp only [Option.bind_some]
    rw [named?_rows]
    rfl

theorem find?_block {b : Block} {k m : Text} (hs : Key.split? k = some (b.name, m)) :
    find? { items := [.block b] } k = b.member? m := by
  unfold find?
  rw [owner?_block hs]

theorem find?_rows (rows : List Row) (k : Text) :
    find? { items := rows.map Item.row } k = rows.find? (·.key == k) := by
  unfold find?
  rw [owner?_rows]
  exact loose?_rows rows k

theorem under?_of_part_block (hd : d.Canonical) {c : Family} {b : Block}
    (hp : d.part c = { items := [.block b] }) {k : Text} (hk : Key.family k = c) :
    d.under? k = (Item.block b).under? k := by
  rw [under?_part (fun _ => hd.isGroup), hk, hp, under?_block]

theorem under?_of_part_rows (hd : d.Canonical) {c : Family} {rows : List Row}
    (hp : d.part c = { items := rows.map Item.row }) {k : Text} (hk : Key.family k = c) :
    d.under? k = rows.find? (·.key == k) := by
  rw [under?_part (fun _ => hd.isGroup), hk, hp, under?_rows]

/-- Looking a full key up finds the row that stands under it. -/
theorem find?_eq (h : d.Canonical) (hn : d.Normal) (k : Text) :
    (d.find? k).map (fun r => { r with key := k }) = d.under? k := by
  have loose : ∀ rows : List Row, (rows.find? (·.key == k)).map (fun r => { r with key := k }) =
      rows.find? (·.key == k) := by
    intro rows
    refine (Option.map_congr fun r hr => ?_).trans Option.map_id'
    rw [← show r.key = k by simpa using List.find?_some hr]
  rw [find?_part, under?_part fun _ => h.isGroup]
  rcases h.part_cases hn (Key.family k) with ⟨b, hf, hp, canonical, -⟩ | ⟨rows, hp, -⟩
  · obtain ⟨m, hs⟩ := Key.split?_of_family hf
    have hk : b.name ++ '_' :: m = k := by
      rw [← Key.join_of_ne_nil canonical.name.ne_nil]
      exact (Key.of_split? hs).2.2
    rw [hp, find?_block hs, under?_block, ← hk]
    exact (Item.under?_block canonical.name m).symm
  · rw [hp, find?_rows, under?_rows, loose]

/-! ## What the single changes replace -/

theorem replaced_push (d : Document) (i : Item) :
    d.Replaced i.family ((d.part i.family).items ++ [i]) (d.push i) where
  part := by simp [part, push]
  others := by simp [others, push]

theorem replaced_modifyNamed (d : Document) (g : Text) {f : Block → Block}
    (hf : ∀ b, (f b).name = b.name) :
    d.Replaced (.group g)
      (updateFirst (Item.isBlock g) (Item.mapBlock f) (d.part (.group g)).items)
      (d.modifyNamed g f) := by
  have keeps : ∀ i, Item.isBlock g i = true →
      i.family = .group g ∧ (i.mapBlock f).family = .group g := by
    intro i hi
    have he := family_of_isBlock hi
    cases i with
    | row r => cases hi
    | block b => exact ⟨he, (congrArg Family.group (hf b)).trans he⟩
  refine ⟨filter_updateFirst (fun i hi => ?_) _, filter_updateFirst_of_not fun i _ hi => ?_⟩
  · simp [keeps i hi]
  · simp [keeps i hi]

/-- Changing the block of a group. -/
theorem replaced_modifyNamed_block {g : Text} {b : Block} (name : b.name = g)
    (hp : d.part (.group g) = { items := [.block b] }) {f : Block → Block}
    (hf : ∀ b, (f b).name = b.name) :
    d.Replaced (.group g) [.block (f b)] (d.modifyNamed g f) := by
  have replaced := d.replaced_modifyNamed g hf
  have one : updateFirst (Item.isBlock g) (Item.mapBlock f) [.block b] =
      [.block (f b)] := by
    simp [updateFirst, Item.isBlock, Item.mapBlock, name]
  rw [hp] at replaced
  exact one ▸ replaced

theorem replaced_modifyLoose (d : Document) (k : Text) {f : Row → Row}
    (hf : ∀ r, (f r).key = r.key) :
    d.Replaced (Key.family k)
      (updateFirst (Item.isRow k) (Item.mapRow f) (d.part (Key.family k)).items)
      (d.modifyLoose k f) := by
  have keeps : ∀ i, Item.isRow k i = true →
      i.family = Key.family k ∧ (i.mapRow f).family = Key.family k := by
    intro i hi
    have he := family_of_isRow hi
    cases i with
    | row r => exact ⟨he, (congrArg Key.family (hf r)).trans he⟩
    | block b => cases hi
  refine ⟨filter_updateFirst (fun i hi => ?_) _, filter_updateFirst_of_not fun i _ hi => ?_⟩
  · simp [keeps i hi]
  · simp [keeps i hi]

theorem replaced_eraseLoose (d : Document) (k : Text) :
    d.Replaced (Key.family k) ((d.part (Key.family k)).items.eraseP (Item.isRow k))
      { items := d.items.eraseP (Item.isRow k) } where
  part := filter_eraseP (fun i hi => by simp [family_of_isRow hi]) _
  others := filter_eraseP_of_not (fun i hi => by simp [family_of_isRow hi]) _

/-- The loose rows of a group make way for a block of it. -/
theorem replaced_gather {g : Text} (hg : Key.IsGroup g) {rows : List Row}
    (hp : d.part (.group g) = { items := rows.map Item.row }) {b : Block} (hb : b.name = g) :
    d.Replaced (.group g) [.block b] ((d.eraseLooseIn g).push (.block b)) := by
  have left : (d.eraseLooseIn g).items = d.others (.group g) := by
    refine List.filter_congr fun i hi => ?_
    cases i with
    | row r =>
      rw [Bool.eq_iff_iff]
      simp [Item.row?, Item.family, ← hg.isMember_iff]
    | block b' =>
      have hne : b'.name ≠ g := by
        rintro rfl
        have : Item.block b' ∈ (d.part (.group b'.name)).items := mem_part hi
        rw [hp] at this
        simp at this
      simp [Item.row?, Item.family, hne]
  have family : (Item.block b).family = .group g := congrArg Family.group hb
  constructor
  · show ((d.eraseLooseIn g).items ++ [Item.block b]).filter (·.family == .group g) = _
    rw [left, List.filter_append]
    simp [others, family]
  · show ((d.eraseLooseIn g).items ++ [Item.block b]).filter (·.family != .group g) = _
    rw [left, List.filter_append]
    simp [others, family]

end Document

end EnvFile
