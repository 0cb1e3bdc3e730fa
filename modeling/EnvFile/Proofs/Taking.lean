import EnvFile.Proofs.Editing

/-! # Taking items in

    Adding an item and merging it are one thing with two rules for a key that
    is taken: adding keeps the row that is there, merging merges the new one
    into it.  `Takes f d i d'` says that `d'` is the canonical document `d`
    with the item `i` taken in by the rule `f`, seen through the rows under
    full keys; it holds for every item that can stand in a canonical
    document (`takes_add`, `takes_mergeItem`).

    Rows may move on the way: a block takes in the loose rows of its group,
    and a row whose group has loose rows founds a block with them.  None of
    this can be seen under the full keys. -/

namespace EnvFile

/-! ## Combining blocks -/

/-- Keep what is there. -/
def Row.keep (old _new : Row) : Row :=
  old

theorem merge_keep (o n : Option Row) : Option.merge Row.keep o n = o.or n := by
  cases o <;> cases n <;> rfl

namespace Block

/-- `combine` brings the rows of a block into another by the rule `f`, member
    by member. -/
structure Combines (f : Row → Row → Row) (combine : Block → Block → Block) : Prop where
  name : ∀ b c, (combine b c).name = b.name
  comment : ∀ b c, (combine b c).comment = if b.comment.isEmpty then c.comment else b.comment
  distinct : ∀ b c, b.Distinct → (combine b c).Distinct
  member? : ∀ b c, c.Distinct → ∀ m,
    (combine b c).member? m = Option.merge f (b.member? m) (c.member? m)
  /-- The rule does not look at keys. -/
  rekey : ∀ (old new : Row) k, f { old with key := k } { new with key := k } =
    { f old new with key := k }

theorem combines_add : Combines Row.keep add where
  name b c := by simp [add]
  comment b c := by simp [add]
  distinct b c h := h.add c
  member? b c _ m := by rw [member?_add, merge_keep]
  rekey _ _ _ := rfl

theorem combines_merge : Combines Row.merge merge where
  name b c := by simp [merge]
  comment b c := by simp [merge]
  distinct b c h := h.merge c
  member? b c h m := member?_merge b m h
  rekey old new k := Row.rekey_merge old new k k

namespace Combines

variable {f : Row → Row → Row} {combine : Block → Block → Block} (h : Combines f combine)
  {b c : Block}

include h

theorem key_of_mem (hc : c.Distinct) {r : Row} (hr : r ∈ (combine b c).rows) :
    (∃ s ∈ b.rows, s.key = r.key) ∨ ∃ s ∈ c.rows, s.key = r.key := by
  have hm := (mem_keys_iff (combine b c)).1 (List.mem_map_of_mem hr)
  rw [h.member? b c hc] at hm
  have : (b.member? r.key).isSome = true ∨ (c.member? r.key).isSome = true := by
    revert hm
    cases b.member? r.key <;> cases c.member? r.key <;> simp
  rw [← mem_keys_iff, ← mem_keys_iff] at this
  exact this.imp List.mem_map.1 List.mem_map.1

theorem canonical (hb : b.Canonical) (hc : c.Canonical) : (combine b c).Canonical where
  name := by
    rw [h.name]
    exact hb.name
  members r hr := by
    rcases h.key_of_mem hc.distinct hr with ⟨s, hs, e⟩ | ⟨s, hs, e⟩
    · exact e ▸ hb.members s hs
    · exact e ▸ hc.members s hs
  distinct := h.distinct b c hb.distinct

theorem normal (hc : c.Distinct) (hb : (Item.block b).Normal) (hcn : (Item.block c).Normal) :
    (Item.block (combine b c)).Normal := by
  refine ⟨?_, fun r hr => ?_⟩
  · show Key.normalize (combine b c).name = (combine b c).name
    rw [h.name]
    exact hb.1
  · rcases h.key_of_mem hc hr with ⟨s, hs, e⟩ | ⟨s, hs, e⟩
    · exact e ▸ hb.2 s hs
    · exact e ▸ hcn.2 s hs

/-- Under a full key, too, the rule decides. -/
theorem under? (hg : Key.IsGroup b.name) (hname : c.name = b.name) (hc : c.Distinct) (k : Text) :
    (Item.block (combine b c)).under? k =
      Option.merge f ((Item.block b).under? k) ((Item.block c).under? k) := by
  have hbc := h.name b c
  by_cases hk : Key.family k = .group b.name
  · obtain ⟨m, hm⟩ := Key.split?_of_family hk
    have e : b.name ++ '_' :: m = k := by
      rw [← Key.join_of_ne_nil hg.ne_nil]
      exact (Key.of_split? hm).2.2
    have at? : ∀ d : Block, d.name = b.name →
        (Item.block d).under? k = (d.member? m).map fun r => { r with key := k } := by
      intro d hd
      have := Item.under?_block (b := d) (hd ▸ hg) m
      rwa [hd, e] at this
    rw [at? _ hbc, at? _ rfl, at? _ hname, h.member? b c hc]
    cases b.member? m <;> cases c.member? m <;> simp [h.rekey]
  · have none : ∀ d : Block, d.name = b.name → (Item.block d).under? k = none := by
      intro d hd
      refine Item.under?_eq_none (fun _ e => ?_) fun e => hk (e.trans (congrArg Family.group hd))
      cases e
      exact hd ▸ hg
    rw [none _ hbc, none _ rfl, none _ hname]
    rfl

end Combines

/-- The block that has this row of a group and no other. -/
def single (g : Text) (r : Row) : Block :=
  { name := g, rows := [RowSet.asMember g r] }

theorem backfillComment_nil (b : Block) : b.backfillComment [] = b := by
  unfold backfillComment
  split
  · rename_i h
    rw [← List.isEmpty_iff.1 h]
  · rfl

theorem addPrefixedRow_eq_add {b : Block} {g : Text} {r : Row} (hb : b.name = g)
    (h : Key.isMember g r.key = true) : b.addPrefixedRow r = b.add (single g r) := by
  subst hb
  rw [addPrefixedRow_of_member h]
  exact (backfillComment_nil _).symm

theorem single_canonical {g : Text} {r : Row} (h : Key.family r.key = .group g)
    (hr : Key.normalize r.key = r.key) :
    (single g r).Canonical ∧ (Item.block (single g r)).Normal ∧
      (Item.block (single g r)).flat = [r] := by
  have hg := Key.isGroup_of_family h
  have full := RowSet.atFullKey_asMember hg.ne_nil (hg.isMember_iff.2 h)
  have hk : g ++ '_' :: (RowSet.asMember g r).key = r.key := by
    rw [← Key.join_of_ne_nil hg.ne_nil]
    exact congrArg Row.key full
  rw [← hk, Key.normalize_append_underscore_iff hg.plain] at hr
  refine ⟨⟨hg, fun s hs => ?_, List.nodup_singleton _⟩, ⟨hr.1, fun s hs => ?_⟩, ?_⟩
  · exact List.mem_singleton.1 hs ▸ hr.2.2
  · exact List.mem_singleton.1 hs ▸ hr.2.1
  · exact congrArg (fun s => [s]) full

/-- The loose rows of a group make a block of it. -/
theorem found {g : Text} (hg : Key.IsGroup g) (hgn : Key.normalize g = g) {rows : List Row}
    (family : ∀ r ∈ rows, Key.family r.key = .group g)
    (normal : ∀ r ∈ rows, Key.normalize r.key = r.key) (nodup : (rows.map Row.key).Nodup) :
    ∃ b, (Block.ofName g).addPrefixedRows rows = b ∧ b.name = g ∧ b.comment = [] ∧
      (Item.block b).flat = rows ∧ b.Canonical ∧ (Item.block b).Normal := by
  have members : ∀ r ∈ rows, Key.isMember g r.key = true :=
    fun r hr => hg.isMember_iff.2 (family r hr)
  have full : ∀ r ∈ rows, (RowSet.asMember g r).atFullKey g = r :=
    fun r hr => RowSet.atFullKey_asMember hg.ne_nil (members r hr)
  have distinct : ((rows.map (RowSet.asMember g)).map Row.key).Nodup := by
    refine List.Nodup.of_map (Key.join g) ?_
    rw [List.map_map, List.map_map]
    refine (List.map_congr_left fun r hr => ?_) ▸ nodup
    exact congrArg Row.key (full r hr).symm
  have name : (ofName g).name = g := hgn
  have hb : (ofName g).addPrefixedRows rows =
      { name := g, comment := [], rows := rows.map (RowSet.asMember g) } := by
    rw [addPrefixedRows_of_members (by rwa [name]), name, addRows_of_nodup distinct]
    simp [ofName, hgn]
  -- the member keys are what is left of keys in normal form
  have keys : ∀ r ∈ rows.map (RowSet.asMember g),
      Key.normalize r.key = r.key ∧ r.key.head? ≠ some '_' := by
    intro r hr
    obtain ⟨s, hs, rfl⟩ := List.mem_map.1 hr
    have hk : g ++ '_' :: (RowSet.asMember g s).key = s.key := by
      rw [← Key.join_of_ne_nil hg.ne_nil]
      exact congrArg Row.key (full s hs)
    have := normal s hs
    rw [← hk, Key.normalize_append_underscore_iff hg.plain] at this
    exact this.2
  refine ⟨_, hb, rfl, rfl, ?_, ⟨hg, fun r hr => (keys r hr).2, distinct⟩,
    hgn, fun r hr => (keys r hr).1⟩
  show (rows.map (RowSet.asMember g)).map (Row.atFullKey g) = rows
  rw [List.map_map]
  exact (List.map_congr_left full).trans (List.map_id _)

end Block

namespace Document

variable {d d' : Document} {f : Row → Row → Row} {combine : Block → Block → Block}

/-! ## What it is to take an item in -/

/-- The title of the block of a name. -/
def title (d : Document) (name : Text) : Text :=
  ((d.named? name).map Block.comment).getD []

/-- `d'` is `d` with the item `i` taken in by the rule `f`. -/
structure Takes (f : Row → Row → Row) (d : Document) (i : Item) (d' : Document) : Prop where
  canonical : d'.Canonical
  normal : d'.Normal
  /-- Rows under new keys are there as they came; the rule decides about keys
      that were taken, and nothing else changes. -/
  under? : ∀ k, d'.under? k = Option.merge f (d.under? k) (i.under? k)
  /-- The items of other families are as they were, in the same order. -/
  others : d'.others i.family = d.others i.family
  /-- A row without a group moves no other item. -/
  keys : ∀ k, i.family = .lone k → d.keys <+: d'.keys
  /-- The block of the group keeps its title, or takes that of the item if it
      has none. -/
  title : ∀ g, i.family = .group g →
    d'.title g = if (d.title g).isEmpty then i.title else d.title g
  /-- No block goes, and a block that is taken in is there. -/
  named : ∀ g, i.family = .group g → (d.named? g).isSome = true ∨ i.block?.isSome = true →
    (d'.named? g).isSome = true

/-- What a family becomes when an item is taken in tells the rest. -/
theorem Replaced.takes {items : List Item} {i : Item} (h : d.Replaced i.family items d')
    (hd : d.Canonical) (hn : d.Normal) (hi : i.Canonical) (gathered : Gathered i.family items)
    (under? : ∀ k, Key.family k = i.family →
      under? { items } k = Option.merge f (d.under? k) (i.under? k))
    (keys : ∀ k, i.family = .lone k → d.keys <+: d'.keys)
    (title : ∀ g, i.family = .group g →
      Document.title { items } g = if (d.title g).isEmpty then i.title else d.title g)
    (named : ∀ g, i.family = .group g → (d.named? g).isSome = true ∨ i.block?.isSome = true →
      (named? { items } g).isSome = true) :
    Takes f d i d' := by
  have hd' := h.canonical hd hn gathered
  have named' : ∀ g, i.family = .group g → d'.named? g = named? { items } g := by
    intro g hg
    rw [named?_part, ← hg, ← h.part]
  refine ⟨hd'.1, hd'.2, fun k => ?_, h.others, keys, fun g hg => ?_, fun g hg => ?_⟩
  · by_cases hk : Key.family k = i.family
    · rw [h.under?_of_family hd'.1 hk, under? k hk]
    · rw [h.under?_ne hd hd'.1 hk, Item.under?_eq_none hi.isGroup hk, Option.merge_none_right]
  · rw [← title g hg]
    unfold Document.title
    rw [named' g hg]
  · rw [named' g hg]
    exact named g hg

/-! ## Blocks -/

theorem title_block (b : Block) : Document.title { items := [.block b] } b.name = b.comment := by
  unfold Document.title
  rw [named?_block]
  rfl

/-- Where the family of a group becomes one block, that block tells the
    rest. -/
theorem Replaced.takes_block {g : Text} {b : Block} {i : Item}
    (h : d.Replaced (.group g) [.block b] d') (name : b.name = g) (family : i.family = .group g)
    (hd : d.Canonical) (hn : d.Normal) (hi : i.Canonical) (canonical : b.Canonical)
    (normal : (Item.block b).Normal)
    (under? : ∀ k, Key.family k = .group g →
      (Item.block b).under? k = Option.merge f (d.under? k) (i.under? k))
    (comment : b.comment = if (d.title g).isEmpty then i.title else d.title g) :
    Takes f d i d' := by
  subst name
  rw [← family] at h
  refine h.takes hd hn hi (family ▸ .block canonical normal) (fun k hk => ?_)
    (fun k hk => nomatch hk.symm.trans family) (fun g hg => ?_) (fun g hg _ => ?_)
  · rw [under?_block]
    exact under? k (hk.trans family)
  · cases family.symm.trans hg
    rw [title_block]
    exact comment
  · cases family.symm.trans hg
    rw [named?_block]
    rfl

theorem title_of_named {g : Text} {b : Block} (h : d.named? g = some b) : d.title g = b.comment := by
  unfold Document.title
  rw [h]
  rfl

theorem title_of_named?_eq_none {g : Text} (h : d.named? g = none) : d.title g = [] := by
  unfold Document.title
  rw [h]
  rfl

/-- Taking in a block leaves one block of its group. -/
theorem takes_putBlock (hc : Block.Combines f combine) (hd : d.Canonical) (hn : d.Normal) {b : Block}
    (hb : b.Canonical) (hbn : (Item.block b).Normal) :
    Takes f d (.block b) (d.putBlock combine b) := by
  rcases hd.group_cases hn hb.name with ⟨b₀, name, hp, named, canonical, normal⟩ |
    ⟨rows, hp, named, loose, family, normal, nodup⟩
  · -- the group has a block, which is combined with the new one
    rw [putBlock_of_named named]
    refine (replaced_modifyNamed_block name hp (hc.name · b)).takes_block ((hc.name b₀ b).trans name)
      rfl hd hn hb (hc.canonical canonical hb) (hc.normal hb.distinct normal hbn) (fun k hk => ?_) ?_
    · rw [hc.under? canonical.name name.symm hb.distinct, under?_of_part_block hd hp hk]
    · rw [hc.comment, title_of_named named]
      rfl
  · have title := title_of_named?_eq_none named
    cases rows with
    | nil =>
      -- the group is new
      have replaced := d.replaced_push (.block b)
      rw [show (Item.block b).family = .group b.name from rfl, hp] at replaced
      rw [putBlock_of_new named loose]
      refine replaced.takes_block rfl rfl hd hn hb hb hbn (fun k hk => ?_) ?_
      · rw [under?_of_part_rows hd hp hk]
        exact Option.merge_none_left.symm
      · rw [title]
        rfl
    | cons r rows =>
      -- the loose rows of the group form the block that is combined with the new one
      obtain ⟨b₁, hb₁, name, comment, flat, canonical', normal'⟩ :=
        Block.found hb.name hbn.1 family normal nodup
      have name' := (hc.name b₁ b).trans name
      rw [putBlock_of_loose named loose, hb₁]
      refine (replaced_gather hb.name hp name').takes_block name' rfl hd hn hb
        (hc.canonical canonical' hb) (hc.normal hb.distinct normal' hbn) (fun k hk => ?_) ?_
      · rw [hc.under? canonical'.name name.symm hb.distinct, under?_of_part_rows hd hp hk]
        unfold Item.under?
        rw [flat]
      · rw [hc.comment, title, comment]
        rfl

/-! ## Rows -/

/-- Items that are alike under full keys, in family and in title are taken in
    alike. -/
theorem Takes.of_block {r : Row} {b : Block} (h : Takes f d (.block b) d')
    (flat : (Item.block b).flat = [r]) (family : Key.family r.key = .group b.name)
    (comment : b.comment = []) : Takes f d (.row r) d' where
  canonical := h.canonical
  normal := h.normal
  under? k := by
    rw [h.under?]
    unfold Item.under?
    rw [flat]
    rfl
  others := by
    rw [show (Item.row r).family = (Item.block b).family from family]
    exact h.others
  keys k hk := nomatch hk.symm.trans family
  title g hg := by
    have := h.title g (family.symm.trans hg)
    rwa [show (Item.block b).title = [] from comment] at this
  named g hg := by
    rintro (hd | hd)
    · exact h.named g (family.symm.trans hg) (.inl hd)
    · cases hd

theorem under?_row (r : Row) (k : Text) :
    (Item.row r).under? k = if r.key = k then some r else none :=
  Block.find?_singleton k r

theorem title_eq_ite (d : Document) (g : Text) :
    d.title g = if (d.title g).isEmpty then [] else d.title g := by
  cases d.title g <;> rfl

/-- A row whose key is taken changes nothing by being added. -/
theorem takes_self (hd : d.Canonical) (hn : d.Normal) {r : Row}
    (h : (d.under? r.key).isSome = true) : Takes Row.keep d (.row r) d where
  canonical := hd
  normal := hn
  under? k := by
    rw [merge_keep, under?_row]
    by_cases hk : r.key = k
    · subst hk
      exact (Option.or_of_isSome h).symm
    · rw [if_neg hk, Option.or_none]
  others := rfl
  keys _ _ := List.prefix_rfl
  title g _ := d.title_eq_ite g
  named g _ h := h.resolve_right (fun h => nomatch h)

/-- A row of a new key may join the loose rows of its family. -/
theorem takes_push (hd : d.Canonical) (hn : d.Normal) {r : Row} (hr : Key.normalize r.key = r.key)
    {rows : List Row} (hp : d.part (Key.family r.key) = { items := rows.map Item.row })
    (family : ∀ s ∈ rows, Key.family s.key = Key.family r.key)
    (normal : ∀ s ∈ rows, Key.normalize s.key = s.key) (nodup : (rows.map Row.key).Nodup)
    (new : rows.find? (·.key == r.key) = none) : Takes f d (.row r) (d.push (.row r)) := by
  have replaced := d.replaced_push (.row r)
  have items : (d.part (Item.row r).family).items ++ [Item.row r] = (rows ++ [r]).map Item.row := by
    rw [show (Item.row r).family = Key.family r.key from rfl, hp]
    simp
  have fresh : ∀ s ∈ rows, s.key ≠ r.key := by simpa using new
  have named : ∀ g, Key.family r.key = .group g → d.named? g = none := by
    intro g hg
    rw [named?_part, ← hg, hp, named?_rows]
  rw [items] at replaced
  refine replaced.takes hd hn trivial (.loose ?_ ?_ ?_) (fun k hk => ?_)
    (fun k _ => ?_) (fun g hg => ?_) (fun g hg h => ?_)
  · simpa [or_imp, forall_and, Item.family] using family
  · simpa [or_imp, forall_and, hr] using normal
  · simpa using List.Nodup.concat (by simpa using fresh) nodup
  · rw [under?_rows, List.find?_append, Block.find?_singleton, under?_of_part_rows hd hp hk,
      under?_row]
    by_cases h : r.key = k
    · subst h
      rw [new, if_pos rfl]
      rfl
    · simp [h]
  · exact ⟨[r.key], by simp [Document.keys, push, Item.key]⟩
  · have title : Document.title { items := (rows ++ [r]).map Item.row } g = [] :=
      title_of_named?_eq_none (named?_rows _ g)
    rw [title, title_of_named?_eq_none (named g hg)]
    rfl
  · rw [named g hg] at h
    rcases h with h | h <;> cases h

theorem under?_of_loose? (hd : d.Canonical) (hn : d.Normal) {k : Text} {r : Row}
    (h : d.loose? k = some r) : d.under? k = some r := by
  rw [loose?_part] at h
  rcases hd.part_cases hn (Key.family k) with ⟨b, -, hp, -⟩ | ⟨rows, hp, -⟩
  · rw [hp] at h
    cases h
  · rw [hp, loose?_rows] at h
    rw [under?_of_part_rows hd hp rfl, h]

/-- Adding a row takes it in. -/
theorem takes_addRow (hd : d.Canonical) (hn : d.Normal) {r : Row}
    (hr : Key.normalize r.key = r.key) : Takes Row.keep d (.row r) (d.addRow r) := by
  unfold addRow
  cases hl : d.loose? r.key with
  | some old => exact takes_self hd hn (by rw [under?_of_loose? hd hn hl]; rfl)
  | none =>
    cases hs : Key.split? r.key with
    | none =>
      have hf := Key.family_of_split?_eq_none hs
      rcases hd.part_cases hn (Key.family r.key) with ⟨b, e, -⟩ | ⟨rows, hp, family, normal, nodup⟩
      · cases hf.symm.trans e
      · refine takes_push hd hn hr hp family normal nodup ?_
        rw [loose?_part, hp, loose?_rows] at hl
        exact hl
    | some gm =>
      obtain ⟨g, m⟩ := gm
      have hf := Key.family_of_split? hs
      have hg := Key.isGroup_of_family hf
      have hm := hg.isMember_iff.2 hf
      obtain ⟨canonical, hgn, flat⟩ := Block.single_canonical hf hr
      -- unless it stays loose, the row is taken in as a block of its own would be
      have asBlock := (takes_putBlock Block.combines_add hd hn canonical hgn).of_block flat hf rfl
      rcases hd.group_cases hn hg with ⟨b, name, hp, named, -⟩ |
        ⟨rows, hp, named, loose, family, normal, nodup⟩
      · have hput : d.putBlock Block.add (Block.single g r) =
            d.modifyNamed g (·.addPrefixedRow r) := by
          rw [putBlock_of_named (b := Block.single g r) named]
          refine congrArg Document.mk (updateFirst_congr (fun i hi => ?_) _)
          cases i with
          | row s => cases hi
          | block b' =>
            exact congrArg Item.block (Block.addPrefixedRow_eq_add (beq_iff_eq.1 hi) hm).symm
        simp only [named]
        exact hput ▸ asBlock
      · simp only [named]
        unfold putMember
        rw [loose]
        cases rows with
        | nil =>
          rw [← hf] at hp
          have hp : d.part (Key.family r.key) = { items := ([] : List Row).map Item.row } := hp
          exact takes_push hd hn hr hp (by simp) (by simp) List.nodup_nil rfl
        | cons s rows =>
          have name : ((Block.ofName g).addPrefixedRows (s :: rows)).name = g :=
            ((Block.ofName g).addPrefixedRows_frame (s :: rows)).1.trans hgn.1
          have hput : d.putBlock Block.add (Block.single g r) =
              (d.eraseLooseIn g).push
                (.block (((Block.ofName g).addPrefixedRows (s :: rows)).addPrefixedRow r)) := by
            rw [putBlock_of_loose (b := Block.single g r) named loose,
              Block.addPrefixedRow_eq_add name hm]
            rfl
          rw [hput] at asBlock
          exact asBlock

/-- Where the key is new there is nothing to decide, and the rule does not
    matter. -/
theorem Takes.of_new {g : Row → Row → Row} {r : Row} (h : Takes g d (.row r) d')
    (new : d.under? r.key = none) : Takes f d (.row r) d' := by
  refine { h with under? := fun k => ?_ }
  rw [h.under?, under?_row]
  by_cases hk : r.key = k
  · subst hk
    rw [new, Option.merge_none_left, Option.merge_none_left]
  · rw [if_neg hk, Option.merge_none_right, Option.merge_none_right]

theorem named?_eq (d : Document) (g : Text) : d.named? g = d.blocks.find? (·.name == g) := by
  unfold named? blocks
  rw [← List.head?_filter, ← List.head?_filter, filter_isBlock]
  cases (d.items.filterMap Item.block?).filter (·.name == g) <;> rfl

/-- The headings of the blocks tell which there are and what their titles
    are. -/
theorem heading_named? (d : Document) (g : Text) :
    (d.named? g).map Block.heading = (d.blocks.map Block.heading).find? (·.1 == g) := by
  rw [named?_eq, List.find?_map]
  rfl

/-- Merging a row into the one that is there takes it in. -/
theorem takes_modify (hd : d.Canonical) (hn : d.Normal) {r old : Row}
    (h : d.find? r.key = some old) : Takes Row.merge d (.row r) (d.modify r.key (·.merge r)) := by
  obtain ⟨changes, found, keys⟩ :=
    modify_changes hd hn r.key (f := (·.merge r)) fun s => (s.merge_frame r).1
  have heading : ∀ g, ((d.modify r.key (·.merge r)).named? g).map Block.heading =
      (d.named? g).map Block.heading := by
    intro g
    rw [heading_named?, heading_named?, changes.headings]
  refine ⟨changes.canonical, changes.normal, fun k => ?_, changes.others,
    fun _ _ => keys ▸ List.prefix_rfl, fun g _ => ?_, fun g _ hb => ?_⟩
  · rw [under?_row]
    by_cases hk : r.key = k
    · subst hk
      rw [← find?_eq changes.canonical changes.normal, found, h, ← find?_eq hd hn, h, if_pos rfl]
      exact congrArg some (Row.rekey_merge old r r.key r.key).symm
    · rw [changes.under? k (Ne.symm hk), if_neg hk, Option.merge_none_right]
  · have : (d.modify r.key (·.merge r)).title g = d.title g := by
      have := congrArg (Option.map Prod.snd) (heading g)
      rw [Option.map_map, Option.map_map] at this
      exact congrArg (·.getD []) this
    rw [this]
    exact d.title_eq_ite g
  · have some? := congrArg Option.isSome (heading g)
    rw [Option.isSome_map, Option.isSome_map] at some?
    rw [some?]
    exact hb.resolve_right fun hb => nomatch hb

/-- Merging a row takes it in. -/
theorem takes_mergeRow (hd : d.Canonical) (hn : d.Normal) {r : Row}
    (hr : Key.normalize r.key = r.key) : Takes Row.merge d (.row r) (d.mergeRow r) := by
  unfold mergeRow
  cases h : d.find? r.key with
  | some old => exact takes_modify hd hn h
  | none =>
    refine (takes_addRow hd hn hr).of_new ?_
    rw [← find?_eq hd hn, h]
    rfl

/-! ## Items -/

/-- Adding an item takes it in; rows that are there stay as they are. -/
theorem takes_add (hd : d.Canonical) (hn : d.Normal) {i : Item} (hi : i.Canonical)
    (hin : i.Normal) : Takes Row.keep d i (d.add i) := by
  cases i with
  | row r => exact takes_addRow hd hn hin.1
  | block b => exact takes_putBlock Block.combines_add hd hn hi hin

/-- Merging an item takes it in; rows of one key are merged. -/
theorem takes_mergeItem (hd : d.Canonical) (hn : d.Normal) {i : Item} (hi : i.Canonical)
    (hin : i.Normal) : Takes Row.merge d i (d.mergeItem i) := by
  cases i with
  | row r => exact takes_mergeRow hd hn hin.1
  | block b => exact takes_putBlock Block.combines_merge hd hn hi hin

/-! ## A document as a map -/

/-- **A document acts as a map from full keys to rows.**  The document is
    canonical, and its keys are such as normalising leaves alone, as are those
    that rows and blocks are made with.

    Taking in an item by adding or merging leads to a canonical document
    again: adding brings in the rows of new keys only, merging merges the rows
    of keys that were taken; a block keeps its title or takes that of the item
    if it has none; and the items of other families keep their order.

    A look-up by any text answers with what stands under the key that the text
    stands for; editing and removing by that text change this row and nothing
    else. -/
theorem acts_as_map (hd : d.Canonical) (hn : d.Normal) :
    (∀ i : Item, i.Canonical → i.Normal →
      Takes Row.keep d i (d.add i) ∧ Takes Row.merge d i (d.mergeItem i)) ∧
    (∀ key : Text, (d.row? key).map (fun r => { r with key := Key.normalize key }) =
      d.under? (Key.normalize key)) ∧
    (∀ (key : Text) (f : Row → Row), (∀ r, (f r).key = r.key) →
      Changes d (Key.normalize key) (d.modifyRow key f) ∧
        (d.modifyRow key f).row? key = (d.row? key).map f ∧ (d.modifyRow key f).keys = d.keys) ∧
    ∀ key : Text, (d.removeRow key).1 = d.row? key ∧
      Changes d (Key.normalize key) (d.removeRow key).2 ∧ (d.removeRow key).2.row? key = none ∧
        (d.removeRow key).2.keys.Sublist d.keys :=
  ⟨fun _ hi hin => ⟨takes_add hd hn hi hin, takes_mergeItem hd hn hi hin⟩,
    fun _ => find?_eq hd hn _,
    fun _ _ hf => modify_changes hd hn _ hf,
    fun _ => ⟨rfl, erase_changes hd hn _⟩⟩

/-- A document with a block and loose rows takes in a block that two of the
    loose rows belong to. -/
theorem acts_as_map_gathering :
    let row (key value : String) : Row := { key := key.toList, value := value.toList }
    let host := (row "DB_HOST" "a").setDisabled true
    let app : Block := { name := "APP".toList, rows := [row "ENV" "prod"] }
    let d : Document :=
      { items := [.row host, .block app, .row (row "DB_PORT" "1"), .row (row "DEBUG" "")] }
    let db : Block :=
      { name := "DB".toList, comment := "Database".toList,
        rows := [row "HOST" "b", row "USER" "u"] }
    d.Canonical ∧ d.Normal ∧ (Item.block db).Canonical ∧ (Item.block db).Normal ∧
      (d.mergeItem (.block db)).Canonical ∧
      (d.mergeItem (.block db)).under? host.key = some (host.setValue ['b']) ∧
      (d.add (.block db)).under? host.key = some host ∧
      (d.add (.block db)).title db.name = db.comment ∧
      (d.row? "app-env".toList).map (fun r => { r with key := "APP_ENV".toList }) =
        some (row "APP_ENV" "prod") ∧
      (d.modifyRow "debug".toList (·.setValue ['1'])).row? "debug".toList =
        some (row "DEBUG" "1") ∧
      (d.removeRow "db-port".toList).2.row? "db-port".toList = none := by
  intro row host app d db
  have hd : d.Canonical := by decide +kernel
  have hn : d.Normal := by decide +kernel
  have hb : (Item.block db).Canonical := by decide +kernel
  have hbn : (Item.block db).Normal := by decide +kernel
  obtain ⟨takes, look, edit, remove⟩ := acts_as_map hd hn
  obtain ⟨add, merge⟩ := takes _ hb hbn
  refine ⟨hd, hn, hb, hbn, merge.canonical, ?_, ?_, ?_, ?_, ?_, (remove _).2.2.1⟩
  · rw [merge.under?]
    decide +kernel
  · rw [add.under?]
    decide +kernel
  · rw [add.title _ rfl]
    decide +kernel
  · rw [show "APP_ENV".toList = Key.normalize "app-env".toList by decide +kernel, look]
    decide +kernel
  · rw [(edit "debug".toList (·.setValue ['1']) fun _ => rfl).2.1]
    decide +kernel

end Document

end EnvFile
