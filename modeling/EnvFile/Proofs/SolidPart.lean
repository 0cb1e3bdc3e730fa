import EnvFile.Proofs.Taking

/-! # The solid part of a document

    A block without rows whose name has an underscore plays no part in any
    look-up.  The *solid* part of a document is what is left without such
    blocks.  Look-ups see no difference, and adding and merging do to the solid
    part what they do to the document (`solid_addRow`, `solid_mergeRow`,
    `solid_putBlock`), as long as no block with an underscore in its name
    receives rows.  If one does, it keeps them: neither adding nor merging takes
    a row out of a block (`Within`). -/

namespace EnvFile

/-- Every row of the block can be named by a key. -/
def Block.Plain (b : Block) : Prop :=
  ∀ r ∈ b.rows, '_' ∉ b.name ∧ r.key.head? ≠ some '_'

/-! ## Rows do not go

    Neither adding nor merging takes a row out of a block or gives a block
    another name. -/

/-- A block of the same name that has all member keys of `b`. -/
structure Block.Within (b c : Block) : Prop where
  name : c.name = b.name
  keys : b.rows.map Row.key ⊆ c.rows.map Row.key

namespace Block

variable {b c : Block}

theorem Within.refl (b : Block) : b.Within b :=
  ⟨rfl, List.Subset.refl _⟩

theorem Within.trans {e : Block} (h : b.Within c) (h' : c.Within e) : b.Within e :=
  ⟨h'.name.trans h.name, fun _ hm => h'.keys (h.keys hm)⟩

theorem within_addPrefixedRow (b : Block) (r : Row) : b.Within (b.addPrefixedRow r) := by
  refine ⟨(b.addPrefixedRow_frame r).1, fun m hm => ?_⟩
  unfold addPrefixedRow
  split
  · -- the row is appended or its key is taken; either way the old keys stay
    rw [mem_keys_iff] at hm ⊢
    rw [member?_addRow]
    simp [hm]
  · exact hm

theorem within_addPrefixedRows (b : Block) (rows : List Row) :
    b.Within (b.addPrefixedRows rows) := by
  unfold addPrefixedRows
  induction rows generalizing b with
  | nil => exact .refl b
  | cons r rows ih => exact (b.within_addPrefixedRow r).trans (ih _)

/-- A row that carries the name founds a block that is not empty. -/
theorem exists_mem_addPrefixedRows {b : Block} {r : Row} (h : Key.isMember b.name r.key = true)
    (rows : List Row) : ∃ m, m ∈ (b.addPrefixedRows (r :: rows)).rows.map Row.key := by
  refine ⟨(RowSet.asMember b.name r).key, (within_addPrefixedRows _ rows).keys ?_⟩
  rw [addPrefixedRow_of_member h, mem_keys_iff, member?_addRow, if_pos rfl]
  cases b.member? (RowSet.asMember b.name r).key <;> rfl

theorem within_modifyMember (b : Block) (m : Text) {f : Row → Row} (hf : ∀ r, (f r).key = r.key) :
    b.Within (b.modifyMember m f) := by
  refine ⟨rfl, fun k hk => ?_⟩
  unfold modifyMember
  rwa [map_updateFirst fun r _ => hf r]

/-- What is combined has the keys of both sides. -/
theorem Combines.mem_keys {f : Row → Row → Row} {combine : Block → Block → Block}
    (h : Combines f combine) (hc : c.Distinct) {m : Text} :
    m ∈ (combine b c).rows.map Row.key ↔ m ∈ b.rows.map Row.key ∨ m ∈ c.rows.map Row.key := by
  simp only [mem_keys_iff, h.member? b c hc]
  cases b.member? m <;> cases c.member? m <;> simp

theorem Combines.within {f : Row → Row → Row} {combine : Block → Block → Block}
    (h : Combines f combine) (hc : c.Distinct) : b.Within (combine b c) :=
  ⟨h.name b c, fun _ hm => (h.mem_keys hc).2 (.inl hm)⟩

/-- A row that is out of reach stays so. -/
theorem Plain.of_within (h : b.Within c) (hc : c.Plain) : b.Plain := by
  intro r hr
  obtain ⟨s, hs, e⟩ := List.mem_map.1 (h.keys (List.mem_map_of_mem hr))
  have := hc s hs
  rwa [h.name, e] at this

end Block

namespace Document

variable {d d' e : Document}

/-- Every block of `d` is within one of `d'`. -/
def Within (d d' : Document) : Prop :=
  ∀ b ∈ d.blocks, ∃ c ∈ d'.blocks, b.Within c

theorem Within.refl (d : Document) : d.Within d :=
  fun b hb => ⟨b, hb, .refl b⟩

theorem Within.trans (h : d.Within d') (h' : d'.Within e) : d.Within e := by
  intro b hb
  obtain ⟨c, hc, hbc⟩ := h b hb
  obtain ⟨x, hx, hcx⟩ := h' c hc
  exact ⟨x, hx, hbc.trans hcx⟩

theorem within_of_blocks (h : d.blocks ⊆ d'.blocks) : d.Within d' :=
  fun b hb => ⟨b, h hb, .refl b⟩

theorem within_push (d : Document) (i : Item) : d.Within (d.push i) :=
  within_of_blocks fun _ hb => mem_blocks_iff.2 (List.mem_append_left _ (mem_blocks_iff.1 hb))

theorem within_eraseLooseIn (d : Document) (g : Text) : d.Within (d.eraseLooseIn g) :=
  within_of_blocks fun _ hb =>
    mem_blocks_iff.2 (List.mem_filter.2 ⟨mem_blocks_iff.1 hb, rfl⟩)

theorem within_modifyNamed (d : Document) (g : Text) {f : Block → Block}
    (hf : ∀ b : Block, b.Within (f b)) : d.Within (d.modifyNamed g f) := by
  intro b hb
  rcases updateFirst_of_mem (mem_blocks_iff.1 hb) (Item.mapBlock f) with h | h
  · exact ⟨b, mem_blocks_iff.2 h, .refl b⟩
  · exact ⟨f b, mem_blocks_iff.2 h, hf b⟩

theorem within_modifyLoose (d : Document) (k : Text) (f : Row → Row) :
    d.Within (d.modifyLoose k f) := by
  refine within_of_blocks fun b hb => mem_blocks_iff.2 ?_
  exact (updateFirst_of_mem (mem_blocks_iff.1 hb) (Item.mapRow f)).elim id id

theorem within_modify (d : Document) (k : Text) {f : Row → Row} (hf : ∀ r, (f r).key = r.key) :
    d.Within (d.modify k f) := by
  unfold modify
  split
  · exact d.within_modifyNamed _ fun b => b.within_modifyMember _ hf
  · exact d.within_modifyLoose k f

theorem within_putMember (d : Document) (g : Text) (r : Row) : d.Within (d.putMember g r) := by
  unfold putMember
  split
  · exact d.within_push _
  · exact (d.within_eraseLooseIn g).trans (within_push _ _)

theorem within_addRow (d : Document) (r : Row) : d.Within (d.addRow r) := by
  unfold addRow
  split
  · exact .refl d
  · split
    · exact d.within_push _
    · split
      · exact d.within_modifyNamed _ fun b => b.within_addPrefixedRow r
      · exact d.within_putMember _ r

theorem within_mergeRow (d : Document) (r : Row) : d.Within (d.mergeRow r) := by
  unfold mergeRow
  split
  · exact d.within_modify _ fun s => (s.merge_frame r).1
  · exact d.within_addRow r

theorem of_named? {g : Text} {b : Block} (h : d.named? g = some b) : b ∈ d.blocks ∧ b.name = g := by
  rw [named?_eq] at h
  exact ⟨List.mem_of_find?_eq_some h, by simpa using List.find?_some h⟩

/-- The block in charge of a key is one that the key names. -/
theorem of_owner? {k m : Text} {b : Block} (h : d.owner? k = some (b, m)) :
    Key.split? k = some (b.name, m) ∧ b ∈ d.blocks := by
  unfold owner? at h
  obtain ⟨⟨g, m'⟩, hs, h⟩ := Option.bind_eq_some_iff.1 h
  obtain ⟨b', hb', e⟩ := Option.map_eq_some_iff.1 h
  cases e
  obtain ⟨hb, rfl⟩ := of_named? hb'
  exact ⟨hs, hb⟩

theorem named?_modifyNamed (d : Document) (g : Text) {f : Block → Block}
    (hf : ∀ b, (f b).name = b.name) : (d.modifyNamed g f).named? g = (d.named? g).map f := by
  have keeps : ∀ i, Item.isBlock g i = true → Item.isBlock g (i.mapBlock f) = true := by
    intro i hi
    cases i with
    | row r => exact hi
    | block b => simpa [Item.isBlock, Item.mapBlock, hf] using hi
  unfold named? modifyNamed
  rw [find?_updateFirst keeps]
  cases d.items.find? (Item.isBlock g) with
  | none => rfl
  | some i => cases i <;> rfl

section PutBlock

variable {f : Row → Row → Row} {combine : Block → Block → Block} (hc : Block.Combines f combine)
  {b : Block} (hb : b.Distinct)

include hc hb

theorem within_putBlock : d.Within (d.putBlock combine b) := by
  unfold putBlock
  split
  · exact d.within_modifyNamed _ fun c => hc.within hb
  · split
    · exact d.within_push _
    · exact (d.within_eraseLooseIn _).trans (within_push _ _)

/-- A block that is brought in is there afterwards. -/
theorem exists_within_putBlock (hn : Key.normalize b.name = b.name) :
    ∃ c ∈ (d.putBlock combine b).blocks, b.Within c := by
  have combined : ∀ c : Block, c.name = b.name → b.Within (combine c b) := fun c name =>
    ⟨(hc.name c b).trans name, fun _ hm => (hc.mem_keys hb).2 (.inr hm)⟩
  unfold putBlock
  split
  · rename_i c hnamed
    refine ⟨combine c b, ?_, combined c (of_named? hnamed).2⟩
    have := d.named?_modifyNamed b.name (hc.name · b)
    rw [hnamed] at this
    exact (of_named? this).1
  · have pushed : ∀ (e : Document) (c : Block), c ∈ (e.push (.block c)).blocks := fun e c =>
      mem_blocks_iff.2 (List.mem_append_right _ List.mem_cons_self)
    split
    · exact ⟨b, pushed d b, .refl b⟩
    · refine ⟨_, pushed _ _, combined _ ?_⟩
      exact (Block.addPrefixedRows_frame _ _).1.trans hn

end PutBlock

/-! ## The solid part

    A block without rows whose name has an underscore plays no part in any
    look-up, and neither adding nor merging looks at it until a block of its
    name comes. -/

end Document

/-- Is this a loose row, or a block that has rows or can be named by keys? -/
def Item.isSolid : Item → Bool
  | .row _ => true
  | .block b => !b.rows.isEmpty || !b.name.contains '_'

theorem Item.isSolid_of_plain {b : Block} (h : '_' ∉ b.name) : (Item.block b).isSolid = true := by
  simp [isSolid, h]

theorem Item.isSolid_of_mem {b : Block} {r : Row} (h : r ∈ b.rows) :
    (Item.block b).isSolid = true := by
  simp [isSolid, List.ne_nil_of_mem h]

theorem Item.isSolid_of_isBlock {g : Text} (hg : '_' ∉ g) {i : Item}
    (h : Item.isBlock g i = true) : i.isSolid = true := by
  cases i with
  | row r => rfl
  | block b => exact isSolid_of_plain ((beq_iff_eq.1 h : b.name = g) ▸ hg)

namespace Document

/-- The document without blocks that no look-up sees. -/
def solid (d : Document) : Document :=
  { items := d.items.filter Item.isSolid }

section Solid

variable {g : Text} (hg : '_' ∉ g)

theorem solid_push (d : Document) {i : Item} (hi : i.isSolid = true) :
    (d.push i).solid = d.solid.push i := by
  unfold solid push
  rw [List.filter_append, List.filter_cons_of_pos hi]
  rfl

theorem solid_push_of_not (d : Document) {i : Item} (hi : i.isSolid = false) :
    (d.push i).solid = d.solid := by
  unfold solid push
  rw [List.filter_append, List.filter_cons_of_neg (by simp [hi])]
  simp

theorem looseRows_solid (d : Document) : d.solid.looseRows = d.looseRows := by
  unfold looseRows solid
  rw [List.filterMap_filter]
  refine List.filterMap_congr fun i _ => ?_
  cases i with
  | row r => rfl
  | block b => simp [Item.row?]

theorem looseIn_solid (d : Document) (g : Text) : d.solid.looseIn g = d.looseIn g := by
  unfold looseIn
  rw [looseRows_solid]

theorem loose?_solid (d : Document) (k : Text) : d.solid.loose? k = d.loose? k := by
  have rows : ∀ i, (Item.isRow k i && i.isSolid) = Item.isRow k i := by
    intro i
    cases i with
    | row r => exact Bool.and_true _
    | block b => rfl
  unfold loose? solid
  rw [← List.head?_filter, ← List.head?_filter, List.filter_filter]
  simp only [rows]

theorem solid_eraseLooseIn (d : Document) (g : Text) :
    (d.eraseLooseIn g).solid = d.solid.eraseLooseIn g := by
  unfold solid eraseLooseIn
  rw [List.filter_filter, List.filter_filter]
  refine congrArg mk (List.filter_congr fun i _ => Bool.and_comm _ _)

theorem solid_modifyLoose (d : Document) (k : Text) (f : Row → Row) :
    (d.modifyLoose k f).solid = d.solid.modifyLoose k f := by
  refine congrArg mk (filter_updateFirst (fun i hi => ?_) _)
  cases i with
  | row r => exact ⟨rfl, rfl⟩
  | block b => cases hi

include hg

theorem named?_solid (d : Document) : d.solid.named? g = d.named? g := by
  unfold named? solid
  rw [← List.head?_filter, ← List.head?_filter, List.filter_filter]
  have blocks : ∀ i, (Item.isBlock g i && i.isSolid) = Item.isBlock g i := by
    intro i
    cases hi : Item.isBlock g i with
    | true => exact Item.isSolid_of_isBlock hg hi
    | false => rfl
  simp only [blocks]

theorem solid_modifyNamed (d : Document) {f : Block → Block} (hf : ∀ b, (f b).name = b.name) :
    (d.modifyNamed g f).solid = d.solid.modifyNamed g f := by
  refine congrArg mk (filter_updateFirst (fun i hi => ⟨Item.isSolid_of_isBlock hg hi, ?_⟩) _)
  cases i with
  | row r => rfl
  | block b =>
    have name : (f b).name = g := (hf b).trans (beq_iff_eq.1 hi)
    exact Item.isSolid_of_plain (name ▸ hg)

theorem solid_putMember (d : Document) (hn : Key.normalize g = g) (r : Row) :
    (d.putMember g r).solid = d.solid.putMember g r := by
  unfold putMember
  rw [looseIn_solid]
  split
  · exact d.solid_push rfl
  · rw [solid_push, solid_eraseLooseIn]
    refine Item.isSolid_of_plain ?_
    rw [(Block.addPrefixedRow_frame _ r).1, (Block.addPrefixedRows_frame _ _).1,
      show (Block.ofName g).name = g from hn]
    exact hg

end Solid

theorem owner?_solid (d : Document) (k : Text) : d.solid.owner? k = d.owner? k := by
  unfold owner?
  cases hs : Key.split? k with
  | none => rfl
  | some gm =>
    simp only [Option.bind_some]
    rw [named?_solid (Key.of_split? hs).2.1]

theorem find?_solid (d : Document) (k : Text) : d.solid.find? k = d.find? k := by
  unfold find?
  rw [owner?_solid, loose?_solid]

theorem solid_modify (d : Document) (k : Text) (f : Row → Row) :
    (d.modify k f).solid = d.solid.modify k f := by
  unfold modify
  rw [owner?_solid]
  -- a block in charge of a key has a name that is split off a key
  cases ho : d.owner? k with
  | none => exact d.solid_modifyLoose k f
  | some bm =>
    have split := (of_owner? ho).1
    exact solid_modifyNamed (Key.of_split? split).2.1 d fun _ => rfl

theorem solid_addRow (d : Document) {r : Row} (hr : Key.normalize r.key = r.key) :
    (d.addRow r).solid = d.solid.addRow r := by
  unfold addRow
  rw [loose?_solid]
  split
  · rfl
  · cases hs : Key.split? r.key with
    | none => exact d.solid_push rfl
    | some gm =>
      obtain ⟨-, plain, -⟩ := Key.of_split? hs
      simp only [named?_solid plain]
      split
      · exact solid_modifyNamed plain d fun b => (b.addPrefixedRow_frame r).1
      · exact solid_putMember plain d (Key.normalize_of_split? hr hs) r

theorem solid_mergeRow (d : Document) {r : Row} (hr : Key.normalize r.key = r.key) :
    (d.mergeRow r).solid = d.solid.mergeRow r := by
  unfold mergeRow
  rw [find?_solid]
  split
  · exact d.solid_modify _ _
  · exact d.solid_addRow hr

theorem solid_putBlock (d : Document) {f : Row → Row → Row} {combine : Block → Block → Block}
    (hc : Block.Combines f combine) {b : Block} (hb : '_' ∉ b.name)
    (hn : Key.normalize b.name = b.name) :
    (d.putBlock combine b).solid = d.solid.putBlock combine b := by
  unfold putBlock
  rw [named?_solid hb, looseIn_solid]
  split
  · exact solid_modifyNamed hb d (hc.name · b)
  · split
    · exact d.solid_push (Item.isSolid_of_plain hb)
    · rw [solid_push, solid_eraseLooseIn]
      refine Item.isSolid_of_plain ?_
      rw [hc.name, (Block.addPrefixedRows_frame _ _).1,
        show (Block.ofName b.name).name = b.name from hn]
      exact hb

/-! ## Blocks that no key names -/

section Hollow

variable {d : Document} {f : Row → Row → Row} {combine : Block → Block → Block}
  (hc : Block.Combines f combine) {b : Block} (hb : b.Distinct) (hu : '_' ∈ b.name)

theorem rows_eq_nil_of_plain {c : Block} (hc : c.Plain) (hu : '_' ∈ c.name) : c.rows = [] :=
  List.eq_nil_iff_forall_not_mem.2 fun r hr => (hc r hr).1 hu

theorem isSolid_eq_false {c : Block} (rows : c.rows = []) (hu : '_' ∈ c.name) :
    (Item.block c).isSolid = false := by
  simp [Item.isSolid, rows, hu]

include hc hb hu

/-- Blocks without rows are combined to one without rows. -/
theorem solid_modifyNamed_of_hollow (before : ∀ c ∈ d.blocks, c.Plain) (rows : b.rows = []) :
    (d.modifyNamed b.name (combine · b)).solid = d.solid := by
  refine congrArg mk (filter_updateFirst_of_not fun i hi hib => ?_)
  cases i with
  | row r => cases hib
  | block c =>
    have hcu : '_' ∈ c.name := (beq_iff_eq.1 hib : c.name = b.name) ▸ hu
    have empty := rows_eq_nil_of_plain (before c (mem_blocks_iff.2 hi)) hcu
    have combined : (combine c b).rows = [] := List.eq_nil_iff_forall_not_mem.2 fun r hr => by
      rcases hc.key_of_mem hb hr with ⟨s, hs, -⟩ | ⟨s, hs, -⟩
      · simp [empty] at hs
      · simp [rows] at hs
    exact ⟨isSolid_eq_false empty hcu, isSolid_eq_false combined (hc.name c b ▸ hcu)⟩

/-- A loose row whose key begins with the name would be out of reach in the
    block. -/
theorem looseIn_eq_nil_of_plain (hn : Key.normalize b.name = b.name) (new : d.named? b.name = none)
    (plain : ∀ c ∈ (d.putBlock combine b).blocks, c.Plain) : d.looseIn b.name = [] := by
  cases hl : d.looseIn b.name with
  | nil => rfl
  | cons r rows =>
    exfalso
    have name : (Block.ofName b.name).name = b.name := hn
    have hr : r ∈ d.looseIn b.name := hl ▸ List.mem_cons_self
    obtain ⟨m, hm⟩ := Block.exists_mem_addPrefixedRows (b := .ofName b.name)
      (name.symm ▸ (List.mem_filter.1 hr).2) rows
    rw [putBlock_of_loose new hl] at plain
    have empty := rows_eq_nil_of_plain
      (plain _ (mem_blocks_iff.2 (List.mem_append_right _ List.mem_cons_self)))
      (by rwa [hc.name, (Block.addPrefixedRows_frame _ _).1, name])
    have kept := (hc.mem_keys hb).2 (.inl hm)
    rw [empty] at kept
    cases kept

/-- A block with an underscore in its name does not matter as long as it has
    no rows. -/
theorem solid_putBlock_of_plain (hn : Key.normalize b.name = b.name)
    (plain : ∀ c ∈ (d.putBlock combine b).blocks, c.Plain) :
    (d.putBlock combine b).solid = d.solid := by
  have rows : b.rows = [] := by
    obtain ⟨e, he, w⟩ := d.exists_within_putBlock hc hb hn
    exact rows_eq_nil_of_plain ((plain e he).of_within w) hu
  cases named : d.named? b.name with
  | some c =>
    have before : ∀ c ∈ d.blocks, c.Plain := by
      intro c hcd
      obtain ⟨e, he, w⟩ := d.within_putBlock hc hb c hcd
      exact (plain e he).of_within w
    rw [putBlock_of_named named]
    exact solid_modifyNamed_of_hollow hc hb hu before rows
  | none =>
    rw [putBlock_of_new named (looseIn_eq_nil_of_plain hc hb hu hn named plain)]
    exact d.solid_push_of_not (isSolid_eq_false rows hu)

end Hollow

/-- The blocks that are left out have no rows. -/
theorem rows_solid (d : Document) : d.solid.rows = d.rows := by
  have empty : ∀ i : Item, i.isSolid = false → i.rows = [] := by
    intro i hi
    cases i with
    | row r => cases hi
    | block b =>
      refine List.eq_nil_iff_forall_not_mem.2 fun r hr => ?_
      rw [Item.isSolid_of_mem hr] at hi
      cases hi
  unfold rows solid
  induction d.items with
  | nil => rfl
  | cons i items ih =>
    cases hi : i.isSolid with
    | true => rw [List.filter_cons_of_pos hi, List.flatMap_cons, List.flatMap_cons, ih]
    | false =>
      rw [List.filter_cons_of_neg (by simp [hi]), List.flatMap_cons, empty i hi, ih]
      rfl

end Document

end EnvFile
