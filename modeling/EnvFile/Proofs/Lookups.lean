import EnvFile.Proofs.SolidPart
import EnvFile.Proofs.Soundness

/-! # Which rows are found

    A look-up splits a key at its first underscore.  A block may be named so
    that no such split leads to it: with an underscore in the name, and also a
    member key may begin with an underscore, which no key in normal form has
    behind another one.  Rows that stand there are never found, and their full
    keys can be taken a second time.

    Documents grow from the empty one by adding and merging items (`Grown`).
    In a grown document all rows are found under their full keys, and no full
    key is taken twice, exactly if it has no such rows
    (`Grown.finds_iff`).

    The invariant (`Settled`) has two sides.  Either some row is out of reach,
    and then it stays so, or the solid part of the document is canonical, and
    remains canonical as items come in. -/

namespace EnvFile

namespace Document

/-- Every row is found under its full key, and where it stands. -/
structure Finds (d : Document) : Prop where
  members : ∀ b ∈ d.blocks, ∀ r ∈ b.rows,
    d.owner? (Key.normalize (r.fullKey b.name)) = some (b, r.key) ∧
      d.row? (r.fullKey b.name) = some r
  loose : ∀ r ∈ d.looseRows, d.owner? (Key.normalize r.key) = none ∧ d.row? r.key = some r

/-- A document that grows from the empty one, item by item.  The items may be
    any that callers can make, but for rows and blocks without a name. -/
inductive Grown : Document → Prop where
  | empty : Grown {}
  | add {d : Document} {i : Item} (grown : Grown d) (made : Made .edit (.ofItem i)) (ne : i.key ≠ []) :
      Grown (d.add i)
  | mergeItem {d : Document} {i : Item} (grown : Grown d) (made : Made .edit (.ofItem i))
      (ne : i.key ≠ []) : Grown (d.mergeItem i)

/-! ## Canonical documents find their rows -/

variable {d d' : Document}

/-- In a canonical document every row is found. -/
theorem Canonical.finds (h : d.Canonical) (hn : d.Normal) : d.Finds := by
  constructor
  · intro b hb r hr
    have block := h.block (mem_blocks_iff.1 hb)
    have normal := hn _ (mem_blocks_iff.1 hb)
    have key : Key.normalize (r.fullKey b.name) = b.name ++ '_' :: r.key := by
      unfold Row.fullKey
      rw [Key.join_of_ne_nil block.name.ne_nil]
      exact (Key.normalize_append_underscore_iff block.name.plain).2
        ⟨normal.1, normal.2 r hr, block.members r hr⟩
    have mem := mem_part (mem_blocks_iff.1 hb)
    -- the family of the group is this block and nothing else
    have owner : d.owner? (b.name ++ '_' :: r.key) = some (b, r.key) := by
      rw [owner?_part, block.name.family_append]
      rcases h.part_cases hn (.group b.name) with ⟨c, -, hp, -⟩ | ⟨rows, hp, -⟩
      · rw [show (Item.block b).family = .group b.name from rfl, hp] at mem
        cases List.mem_singleton.1 mem
        rw [hp, owner?_block (block.name.split?_append r.key)]
      · rw [show (Item.block b).family = .group b.name from rfl, hp] at mem
        simp at mem
    unfold row? find?
    rw [key, owner]
    exact ⟨rfl, block.distinct.member?_of_mem hr⟩
  · intro r hr
    have mem := mem_part (mem_looseRows_iff.1 hr)
    rw [show (Item.row r).family = Key.family r.key from rfl] at mem
    unfold row?
    rw [show Key.normalize r.key = r.key from (hn _ (mem_looseRows_iff.1 hr)).1, owner?_part,
      find?_part]
    -- the family of the key is made of loose rows, so no block is in charge
    rcases h.part_cases hn (Key.family r.key) with ⟨b, -, hp, -⟩ | ⟨rows, hp, -, -, nodup⟩
    · rw [hp] at mem
      cases List.mem_singleton.1 mem
    · rw [hp] at mem ⊢
      obtain ⟨s, hs, e⟩ := List.mem_map.1 mem
      cases e
      rw [owner?_rows, find?_rows, ← List.head?_filter, filter_eq_singleton nodup hs]
      exact ⟨rfl, rfl⟩

/-! ## Growing -/

/-- Some row is out of reach, or the solid part of the document is
    canonical. -/
def Settled (d : Document) : Prop :=
  (∃ b ∈ d.blocks, ¬ b.Plain) ∨ d.solid.Canonical ∧ d.solid.Normal

theorem Settled.of_within (h : d.Settled) (w : d.Within d')
    (step : d.solid.Canonical → d.solid.Normal → d'.Settled) : d'.Settled := by
  rcases h with ⟨b, hb, hn⟩ | ⟨hc, hn⟩
  · obtain ⟨c, hc, hbc⟩ := w b hb
    exact .inl ⟨c, hc, fun plain => hn (plain.of_within hbc)⟩
  · exact step hc hn

theorem Settled.addRow (h : d.Settled) {r : Row} (hr : Key.normalize r.key = r.key) :
    (d.addRow r).Settled := by
  refine h.of_within (d.within_addRow r) fun hc hn => .inr ?_
  rw [solid_addRow d hr]
  have takes := takes_addRow hc hn hr
  exact ⟨takes.canonical, takes.normal⟩

theorem Settled.mergeRow (h : d.Settled) {r : Row} (hr : Key.normalize r.key = r.key) :
    (d.mergeRow r).Settled := by
  refine h.of_within (d.within_mergeRow r) fun hc hn => .inr ?_
  rw [solid_mergeRow d hr]
  have takes := takes_mergeRow hc hn hr
  exact ⟨takes.canonical, takes.normal⟩

theorem Settled.putBlock {f : Row → Row → Row} {combine : Block → Block → Block}
    (hc : Block.Combines f combine) (h : d.Settled) {b : Block} (hb : b.Distinct)
    (hn : (Item.block b).Normal) (ne : b.name ≠ []) : (d.putBlock combine b).Settled := by
  refine h.of_within (d.within_putBlock hc hb) fun canonical normal => ?_
  by_cases plain : ∀ c ∈ (d.putBlock combine b).blocks, c.Plain
  · right
    -- the block is empty and not looked into, or it can stand in a canonical document
    by_cases hu : '_' ∈ b.name
    · rw [solid_putBlock_of_plain hc hb hu hn.1 plain]
      exact ⟨canonical, normal⟩
    · obtain ⟨c, hcm, w⟩ := d.exists_within_putBlock hc hb hn.1
      have members : ∀ r ∈ b.rows, r.key.head? ≠ some '_' :=
        fun r hr => ((plain c hcm).of_within w r hr).2
      rw [solid_putBlock d hc hu hn.1]
      have takes := takes_putBlock hc canonical normal ⟨⟨ne, hu⟩, members, hb⟩ hn
      exact ⟨takes.canonical, takes.normal⟩
  · left
    simpa using plain

/-- What callers can make, brought in by either rule, leaves the document
    settled. -/
theorem Settled.step (h : d.Settled) {i : Item} (made : Made .edit (.ofItem i)) (ne : i.key ≠ []) :
    (d.add i).Settled ∧ (d.mergeItem i).Settled := by
  cases i with
  | row r => exact ⟨h.addRow made.normal, h.mergeRow made.normal⟩
  | block b =>
    have distinct := (made.all Row.lasting_normal).distinct rfl
    exact ⟨h.putBlock Block.combines_add distinct made.normal ne,
      h.putBlock Block.combines_merge distinct made.normal ne⟩

theorem Grown.settled (grown : d.Grown) : d.Settled := by
  -- by induction on the run; the step is the same for both rules
  induction grown with
  | empty => exact .inr (by decide)
  | add _ made ne ih => exact (ih.step made ne).1
  | mergeItem _ made ne ih => exact (ih.step made ne).2

/-! ## What is found -/

theorem Finds.of_solid (h : d.solid.Finds) : d.Finds := by
  have row : ∀ k, d.solid.row? k = d.row? k := fun k => d.find?_solid (Key.normalize k)
  constructor
  · intro b hb r hr
    have hs : b ∈ d.solid.blocks :=
      mem_blocks_iff.2 (List.mem_filter.2 ⟨mem_blocks_iff.1 hb, Item.isSolid_of_mem hr⟩)
    rw [← owner?_solid, ← row]
    exact h.members b hs r hr
  · intro r hr
    rw [← owner?_solid, ← row]
    exact h.loose r (d.looseRows_solid.symm ▸ hr)

/-- A member that is found can be named by a key. -/
theorem Finds.plain (h : d.Finds) {b : Block} (hb : b ∈ d.blocks) : b.Plain := by
  intro r hr
  obtain ⟨hs, -⟩ := of_owner? (h.members b hb r hr).1
  obtain ⟨ne, plain, e⟩ := Key.of_split? hs
  rw [Key.join_of_ne_nil ne] at e
  have normal := Key.normalize_normalize (r.fullKey b.name)
  rw [← e, Key.normalize_append_underscore_iff plain] at normal
  exact ⟨plain, normal.2.2⟩

/-- **Which documents find their rows.**  In a document that grew by adding
    and merging items, no full key is taken twice and every row is found where
    it stands, exactly if no block with an underscore in its name has rows and
    no member key begins with an underscore. -/
theorem Grown.finds_iff (grown : d.Grown) :
    (d.rows.map Prod.fst).Nodup ∧ d.Finds ↔
      ∀ b ∈ d.blocks, ∀ r ∈ b.rows, '_' ∉ b.name ∧ r.key.head? ≠ some '_' := by
  refine ⟨fun h b hb => h.2.plain hb, fun plain => ?_⟩
  rcases grown.settled with ⟨b, hb, hn⟩ | ⟨canonical, normal⟩
  · exact absurd (plain b hb) hn
  · -- what is left out of the solid part has no rows
    refine ⟨?_, (canonical.finds normal).of_solid⟩
    rw [← rows_solid]
    exact canonical.keys_nodup

/-- A row that stays loose, one that joins a block, loose rows that found a
    block, and an empty block with an underscore in its name. -/
theorem Grown.finds_members :
    let app := (Block.ofName "app".toList).addRow (.ofPair "env".toList "dev".toList)
    let d := ((((({} : Document).add (.block app)).add
      (.row (.ofPair "db_host".toList "a".toList))).mergeItem
      (.row (.ofPair "app_port".toList "80".toList))).add
      (.row (.ofPair "db_port".toList "1".toList))).add (.block (.ofName "log_file".toList))
    d.Grown ∧ d.keys = ["APP".toList, "DB".toList, "LOG_FILE".toList] ∧
      (d.rows.map Prod.fst).Nodup ∧ d.Finds := by
  intro app d
  have row : ∀ k v : String, Made .edit (.ofItem (.row (.ofPair k.toList v.toList))) :=
    fun k v => .ofPair k.toList v.toList
  have made : Made .edit (.ofItem (.block app)) := (Made.ofName _).addRow (.ofPair _ _)
  have grown : d.Grown :=
    ((((Grown.empty.add made (by decide)).add (row "db_host" "a") (by decide)).mergeItem
      (row "app_port" "80") (by decide)).add (row "db_port" "1") (by decide)).add
      (i := .block (.ofName "log_file".toList)) (.ofName _) (by decide)
  exact ⟨grown, by decide +kernel, grown.finds_iff.2 (by decide +kernel)⟩

/-- In a block with an underscore in its name no row is found, and the full key
    of a row in it can be taken again.  A member key that begins with an
    underscore is not found either. -/
theorem Grown.exists_not_found :
    let db := (Block.ofName "app_db".toList).addRow (.ofPair "host".toList "x".toList)
    let a := (Block.ofName "a".toList).addRow (.ofPair "_b".toList "x".toList)
    let d := ({} : Document).add (.block db)
    let twice := d.add (.row (.ofPair "app_db_host".toList "y".toList))
    let marked := ({} : Document).add (.block a)
    d.Grown ∧ d.rows = [("APP_DB_HOST".toList, Row.ofPair "host".toList "x".toList)] ∧
      d.row? "APP_DB_HOST".toList = none ∧
    twice.Grown ∧ twice.rows.map Prod.fst = ["APP_DB_HOST".toList, "APP_DB_HOST".toList] ∧
    marked.Grown ∧ marked.rows.map Prod.fst = ["A__B".toList] ∧
      marked.row? "A__B".toList = none := by
  intro db a d twice marked
  have grown : d.Grown :=
    Grown.empty.add (i := .block db) ((Made.ofName _).addRow (.ofPair _ _)) (by decide)
  have twice_grown : twice.Grown :=
    grown.add (i := .row (.ofPair "app_db_host".toList "y".toList)) (.ofPair _ _) (by decide)
  have marked_grown : marked.Grown :=
    Grown.empty.add (i := .block a) ((Made.ofName _).addRow (.ofPair _ _)) (by decide)
  exact ⟨grown, by decide +kernel, by decide +kernel, twice_grown, by decide +kernel, marked_grown,
    by decide +kernel, by decide +kernel⟩

end Document

end EnvFile
