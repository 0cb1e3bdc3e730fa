import EnvFile.Proofs.Families

/-! # How rows are grouped

    Arranging a row set is fixed by what its document has to look like
    (`RowSet.Grouped`): every row is there, under its full key; a group with
    more rows than the threshold is a block, and no other is; items and members
    come in the order of their keys; and a block has the first title that stood
    above one of its members.  There is exactly one such document, the
    arrangement (`RowSet.grouped_iff`).

    A block may as well be put together row by row, the way blocks take rows
    in.  Since no two members of a group have one member key, none is refused
    on the way (`RowSet.collect_eq`). -/

namespace EnvFile

/-! ## The order of items -/

/-- Items come in the order of their keys, and of one key the loose row comes
    before the block. -/
def Item.Before (i j : Item) : Prop :=
  i.key.precedes j.key = true ∨ i.key = j.key ∧ i.row?.isSome = true ∧ j.block?.isSome = true

namespace Item

theorem not_before_self (i : Item) : ¬ i.Before i := by
  rintro (h | ⟨-, hrow, hblock⟩)
  · exact Text.precedes_irrefl _ h
  · cases i with
    | row r => cases hblock
    | block b => cases hrow

theorem Before.asymm {i j : Item} (h : i.Before j) : ¬ j.Before i := by
  rintro h'
  rcases h with h | ⟨e, hi, hj⟩
  · rcases h' with h' | ⟨e, -, -⟩
    · exact Text.precedes_asymm h h'
    · exact Text.precedes_irrefl _ (e ▸ h)
  · rcases h' with h' | ⟨-, -, hi'⟩
    · exact Text.precedes_irrefl _ (e ▸ h')
    · cases i with
      | row r => cases hi'
      | block b => cases hi

end Item

/-- Items in this order are fixed by which there are. -/
theorem eq_of_before {is js : List Item} (hi : is.Pairwise Item.Before)
    (hj : js.Pairwise Item.Before) (h : ∀ i, i ∈ is ↔ i ∈ js) : is = js := by
  have nodup : ∀ {ks : List Item}, ks.Pairwise Item.Before → ks.Nodup := by
    intro ks hk
    refine hk.imp fun {a b} hab e => ?_
    subst e
    exact Item.not_before_self a hab
  have perm : is.Perm js := (List.perm_ext_iff_of_nodup (nodup hi) (nodup hj)).2 h
  exact perm.eq_of_pairwise (fun a b _ _ hab hba => absurd hba hab.asymm) hi hj

section Sorting

variable {α : Type} {key : α → Text}

/-- What is in order is left alone by sorting. -/
theorem sortOn_eq_self {l : List α} (h : Catalog.Ascending key l) : sortOn key l = l := by
  induction l with
  | nil => rfl
  | cons a l ih =>
    obtain ⟨ha, hl⟩ := List.pairwise_cons.1 h
    show insertOn key a (sortOn key l) = a :: l
    rw [ih hl]
    cases l with
    | nil => rfl
    | cons b l =>
      have hab := ha b List.mem_cons_self
      rw [insertOn, if_neg (Text.precedes_asymm hab)]

/-- A relation among things of one key survives sorting. -/
theorem sortOn_pairwise_of_key_eq {R : α → α → Prop} {l : List α}
    (h : l.Pairwise fun a b => key a = key b → R a b) :
    (sortOn key l).Pairwise fun a b => key a = key b → R a b := by
  -- the things of one key come out in the order they went in
  have same : ∀ k, ((sortOn key l).filter (key · == k)).Pairwise R := by
    intro k
    rw [filter_sortOn, List.pairwise_filter]
    refine h.imp fun {a b} hab ha hb => hab ?_
    rw [beq_iff_eq.1 ha, beq_iff_eq.1 hb]
  generalize sortOn key l = m at same
  induction m with
  | nil => exact .nil
  | cons a m ih =>
    refine List.pairwise_cons.2 ⟨fun b hb e => ?_, ih fun k => ?_⟩
    · have ha := same (key a)
      rw [List.filter_cons_of_pos (by simp)] at ha
      exact (List.pairwise_cons.1 ha).1 b (List.mem_filter.2 ⟨hb, by simp [e]⟩)
    · exact (same k).sublist ((List.sublist_cons_self a m).filter _)

end Sorting

/-- A common beginning does not change the order of two texts. -/
theorem Text.precedes_append_left (s t u : Text) :
    precedes (s ++ t) (s ++ u) = precedes t u := by
  induction s with
  | nil => rfl
  | cons c s ih => simp [precedes, ih]

namespace RowSet

/-! ## What a grouped document is -/

/-- The rows whose keys name a group, in the order of their keys. -/
def ofGroup (s : RowSet) (g : Text) : List Row :=
  s.rows.toList.filter fun r => groupOf r == some g

/-- `t` is the first banner with text above one of the rows, or empty if there
    is none. -/
inductive Heads (s : RowSet) : List Row → Text → Prop where
  | found {pre post : List Row} {r : Row} {t : Text}
      (none : ∀ q ∈ pre, ∀ u, s.banner? q.key = some u → u = [])
      (banner : s.banner? r.key = some t) (text : t ≠ []) : Heads s (pre ++ r :: post) t
  | empty {rows : List Row} (none : ∀ q ∈ rows, ∀ u, s.banner? q.key = some u → u = []) :
      Heads s rows []

/-- The document holds the rows of the row set, grouped by the threshold. -/
structure Grouped (s : RowSet) (l : Layout) (d : Document) : Prop where
  /-- Under full keys the rows are those of the row set, each once. -/
  rows : d.flat.Perm s.rows.toList
  /-- A group is a block exactly if it has more rows than the threshold. -/
  blocks : ∀ g, g ≠ [] →
    ((∃ b ∈ d.blocks, b.name = g) ↔ l.groupThreshold < (s.ofGroup g).length)
  /-- Each block is named after a group, which no other block has. -/
  named : ∀ b ∈ d.blocks, b.name ≠ [] ∧ ∀ c ∈ d.blocks, c.name = b.name → c = b
  /-- A block holds its whole group, each row under the text behind the
      underscore. -/
  members : ∀ b ∈ d.blocks, ∀ m, m ∈ b.rows ↔
    ∃ r ∈ s.rows.toList, Key.split? r.key = some (b.name, m.key) ∧ m = { r with key := m.key }
  /-- All other rows are loose, as they are. -/
  loose : ∀ r, r ∈ d.looseRows ↔ r ∈ s.rows.toList ∧
    ∀ g, groupOf r = some g → (s.ofGroup g).length ≤ l.groupThreshold
  /-- Items are in the order of their keys, a row before a block. -/
  ordered : d.items.Pairwise Item.Before
  /-- The members of a block are in the order of their keys. -/
  ascending : ∀ b ∈ d.blocks, Catalog.Ascending Row.key b.rows
  /-- A block has the first title of its members. -/
  titles : ∀ b ∈ d.blocks, s.Heads (s.ofGroup b.name) b.comment

variable {s : RowSet} {l : Layout}

/-- At most one text heads the rows. -/
theorem Heads.unique {rows : List Row} {t u : Text} (ht : s.Heads rows t) (hu : s.Heads rows u) :
    t = u := by
  -- either way the text is the first banner that is not empty
  have first : ∀ {rows : List Row} {t : Text}, s.Heads rows t → s.titleOf rows = t := by
    intro rows t h
    cases h with
    | @found pre post r _ none banner text =>
      induction pre with
      | nil => exact s.titleOf_cons banner text
      | cons q pre ih =>
        have ih' := ih fun p hp => none p (List.mem_cons_of_mem q hp)
        have hq := none q List.mem_cons_self
        unfold titleOf at ih' ⊢
        rw [List.cons_append, List.filterMap_cons]
        cases hb : s.banner? q.key with
        | none => exact ih'
        | some v => rw [List.find?_cons_of_neg (by simp [hq v hb]), ih']
    | empty none =>
      by_contra hne
      obtain ⟨r, hr, hb⟩ := s.titleOf_mem hne
      exact hne (none r hr _ hb)
  rw [← first ht, first hu]

/-- The title of rows heads them. -/
theorem heads_titleOf (s : RowSet) (rows : List Row) : s.Heads rows (s.titleOf rows) := by
  induction rows with
  | nil => exact .empty (by simp)
  | cons r rows ih =>
    by_cases hr : ∃ t, s.banner? r.key = some t ∧ t ≠ []
    · obtain ⟨t, ht, ne⟩ := hr
      rw [s.titleOf_cons ht ne]
      exact @Heads.found s [] rows r t (by simp) ht ne
    · have hnone : ∀ u, s.banner? r.key = some u → u = [] := by
        intro u hu
        by_contra hne
        exact hr ⟨u, hu, hne⟩
      have htail : s.titleOf (r :: rows) = s.titleOf rows := by
        unfold titleOf
        rw [List.filterMap_cons]
        cases hb : s.banner? r.key with
        | none => rfl
        | some v => rw [List.find?_cons_of_neg (by simp [hnone v hb])]
      rw [htail]
      generalize s.titleOf rows = t at ih
      cases ih with
      | @found pre post q _ none banner text =>
        exact @Heads.found s (r :: pre) post q t (List.forall_mem_cons.2 ⟨hnone, none⟩) banner text
      | empty none => exact .empty (List.forall_mem_cons.2 ⟨hnone, none⟩)

/-! ## Arranging groups -/

theorem membersOf_eq_ofGroup {g : Text} (hg : Key.IsGroup g) : s.membersOf g = s.ofGroup g :=
  s.membersOf_eq hg.ne_nil hg.plain

theorem isGroup_of_mem_blockNames {g : Text} (h : g ∈ s.blockNames l) : Key.IsGroup g := by
  obtain ⟨-, ne, plain⟩ := s.group_of_mem_blockNames l h
  exact ⟨ne, plain⟩

theorem isGroup_of_groupOf {r : Row} {g : Text} (h : groupOf r = some g) : Key.IsGroup g := by
  obtain ⟨⟨g', m⟩, hm, rfl⟩ := Option.map_eq_some_iff.1 h
  obtain ⟨ne, plain, -⟩ := Key.of_split? hm
  exact ⟨ne, plain⟩

/-- The blocks are the groups with more rows than the threshold. -/
theorem mem_blockNames_iff_lt {g : Text} :
    g ∈ s.blockNames l ↔ l.groupThreshold < (s.ofGroup g).length := by
  constructor
  · intro h
    have hg := isGroup_of_mem_blockNames h
    have hforms := (List.mem_filter.1 h).2
    unfold formsBlock at hforms
    rw [membersOf_eq_ofGroup hg] at hforms
    simpa using hforms
  · intro h
    -- a group that has rows at all is named by one of them
    have hne : s.ofGroup g ≠ [] := by
      intro hnil
      rw [hnil] at h
      exact Nat.not_lt_zero _ h
    obtain ⟨r, hr⟩ := List.exists_mem_of_ne_nil _ hne
    obtain ⟨hmem, hgroup⟩ := List.mem_filter.1 hr
    have hgroup : groupOf r = some g := beq_iff_eq.1 hgroup
    rw [s.mem_blockNames_iff l hmem hgroup]
    unfold formsBlock
    rw [membersOf_eq_ofGroup (isGroup_of_groupOf hgroup)]
    simpa using h

theorem mem_blocks_arrange {b : Block} :
    b ∈ (s.arrange l).blocks ↔ ∃ g ∈ s.blockNames l, s.blockOf g = b := by
  rw [mem_blocks_iff, s.mem_items_arrange_block l]

theorem asMember_eq {r : Row} {g m : Text} (h : Key.split? r.key = some (g, m)) :
    asMember g r = { r with key := m } := by
  unfold asMember
  rw [Key.member?_of_split? h]
  rfl

theorem mem_blockOf_iff {g : Text} (hg : Key.IsGroup g) {m : Row} :
    m ∈ (s.blockOf g).rows ↔
      ∃ r ∈ s.rows.toList, Key.split? r.key = some (g, m.key) ∧ m = { r with key := m.key } := by
  show m ∈ (s.membersOf g).map (asMember g) ↔ _
  rw [membersOf_eq_ofGroup hg, List.mem_map]
  constructor
  · rintro ⟨r, hr, rfl⟩
    obtain ⟨hmem, hgroup⟩ := List.mem_filter.1 hr
    obtain ⟨⟨g', k⟩, hk, hgg⟩ := Option.map_eq_some_iff.1 (beq_iff_eq.1 hgroup)
    obtain rfl : g' = g := hgg
    rw [asMember_eq hk]
    exact ⟨r, hmem, hk, rfl⟩
  · rintro ⟨r, hr, hk, hm⟩
    refine ⟨r, List.mem_filter.2 ⟨hr, ?_⟩, ?_⟩
    · unfold groupOf
      rw [hk]
      simp
    · rw [asMember_eq hk]
      exact hm.symm

/-- The members of a group come in the order of their member keys, since one
    beginning stands in front of all of them. -/
theorem ascending_blockOf {g : Text} (hg : Key.IsGroup g) :
    Catalog.Ascending Row.key (s.blockOf g).rows := by
  have full : ∀ r ∈ s.membersOf g, r.key = g ++ '_' :: (asMember g r).key := by
    intro r hr
    have := congrArg Row.key (atFullKey_asMember hg.ne_nil (List.mem_filter.1 hr).2)
    rw [← Key.join_of_ne_nil hg.ne_nil]
    exact this.symm
  have sorted : Catalog.Ascending Row.key (s.membersOf g) := s.rows.ascending.filter _
  refine List.pairwise_map.2 (List.Pairwise.imp_of_mem (fun {a b} ha hb h => ?_) sorted)
  have cut : ∀ k m : Text, Text.precedes (g ++ '_' :: k) (g ++ '_' :: m) = k.precedes m := by
    intro k m
    rw [Text.precedes_append_left]
    exact Text.precedes_append_left ['_'] k m
  rwa [full a ha, full b hb, cut] at h

/-- Arranged items are in order. -/
theorem ordered_arrange : (s.arrange l).items.Pairwise Item.Before := by
  have loose : ((s.looseRows l).map Row.key).Nodup :=
    (List.filter_sublist.map _).nodup s.nodup_keys
  -- of one key there is a loose row and a block at the most, and the row comes first
  have one : ((s.looseRows l).map Item.row ++
      (s.blockNames l).map fun g => Item.block (s.blockOf g)).Pairwise fun i j =>
        i.key = j.key → i.row?.isSome = true ∧ j.block?.isSome = true := by
    refine List.pairwise_append.2 ⟨?_, ?_, ?_⟩
    · rw [List.pairwise_map]
      exact (List.pairwise_map.1 loose).imp fun {a b} hne e => absurd e hne
    · rw [List.pairwise_map]
      exact (s.nodup_blockNames l).imp fun {a b} hne e => absurd e hne
    · intro i hi j hj _
      obtain ⟨r, -, rfl⟩ := List.mem_map.1 hi
      obtain ⟨g, -, rfl⟩ := List.mem_map.1 hj
      exact ⟨rfl, rfl⟩
  have sorted := (@sortOn_pairwise _ Item.key _).and (sortOn_pairwise_of_key_eq one)
  refine sorted.imp fun {i j} h => ?_
  rcases Text.precedes_trichotomy i.key j.key with hlt | heq | hgt
  · exact .inl hlt
  · exact .inr ⟨heq, h.2 heq⟩
  · exact absurd hgt h.1

theorem grouped_arrange (s : RowSet) (l : Layout) : s.Grouped l (s.arrange l) where
  rows := s.flat_arrange l
  blocks g _ := by
    rw [← mem_blockNames_iff_lt]
    constructor
    · rintro ⟨b, hb, rfl⟩
      obtain ⟨g, hg, rfl⟩ := mem_blocks_arrange.1 hb
      exact hg
    · intro hg
      exact ⟨s.blockOf g, mem_blocks_arrange.2 ⟨g, hg, rfl⟩, rfl⟩
  named b hb := by
    obtain ⟨g, hg, rfl⟩ := mem_blocks_arrange.1 hb
    refine ⟨(isGroup_of_mem_blockNames hg).ne_nil, fun c hc e => ?_⟩
    obtain ⟨g', -, rfl⟩ := mem_blocks_arrange.1 hc
    exact congrArg s.blockOf e
  members b hb m := by
    obtain ⟨g, hg, rfl⟩ := mem_blocks_arrange.1 hb
    exact mem_blockOf_iff (isGroup_of_mem_blockNames hg)
  loose r := by
    rw [mem_looseRows_iff, s.mem_items_arrange_row l, s.looseRows_eq l, List.mem_filter]
    refine and_congr_right fun _ => ?_
    cases hg : groupOf r with
    | none => simp
    | some g =>
      have := mem_blockNames_iff_lt (s := s) (l := l) (g := g)
      simpa using (not_congr this).trans Nat.not_lt
  ordered := ordered_arrange
  ascending b hb := by
    obtain ⟨g, hg, rfl⟩ := mem_blocks_arrange.1 hb
    exact ascending_blockOf (isGroup_of_mem_blockNames hg)
  titles b hb := by
    obtain ⟨g, hg, rfl⟩ := mem_blocks_arrange.1 hb
    show s.Heads (s.ofGroup g) (s.titleOf (s.membersOf g))
    rw [membersOf_eq_ofGroup (isGroup_of_mem_blockNames hg)]
    exact s.heads_titleOf _

/-! ## There is no other -/

namespace Grouped

variable {d e : Document}

/-- Two groupings have the same blocks. -/
theorem mem_blocks (hd : s.Grouped l d) (he : s.Grouped l e) {b : Block} (hb : b ∈ d.blocks) :
    b ∈ e.blocks := by
  obtain ⟨ne, -⟩ := hd.named b hb
  obtain ⟨c, hc, name⟩ := (he.blocks b.name ne).2 ((hd.blocks b.name ne).1 ⟨b, hb, rfl⟩)
  have rows : b.rows = c.rows := by
    refine (hd.ascending b hb).eq_of_mem_iff (he.ascending c hc) fun m => ?_
    rw [hd.members b hb, he.members c hc, name]
  have comment : b.comment = c.comment := by
    have ht := hd.titles b hb
    rw [← name] at ht
    exact ht.unique (he.titles c hc)
  have : b = c := by
    obtain ⟨bname, bcomment, brows⟩ := b
    obtain ⟨cname, ccomment, crows⟩ := c
    cases name
    cases rows
    cases comment
    rfl
  exact this ▸ hc

theorem unique (hd : s.Grouped l d) (he : s.Grouped l e) : d = e := by
  have items : d.items = e.items := by
    refine eq_of_before hd.ordered he.ordered fun i => ?_
    cases i with
    | row r => rw [← mem_looseRows_iff, ← mem_looseRows_iff, hd.loose, he.loose]
    | block b =>
      rw [← mem_blocks_iff, ← mem_blocks_iff]
      exact ⟨hd.mem_blocks he, he.mem_blocks hd⟩
  obtain ⟨is⟩ := d
  obtain ⟨js⟩ := e
  exact congrArg Document.mk items

end Grouped

/-! ## Block by block, row by row -/

/-- The block of a group, put together row by row: each member hands on the
    banner above it and joins under its member key, and the rows are sorted at
    the end. -/
def collect (s : RowSet) (g : Text) : Block :=
  let b := (s.membersOf g).foldl
    (fun b r => (b.backfillComment ((s.banner? r.key).getD [])).addRow (asMember g r))
    (Block.ofName g)
  { b with rows := sortOn Row.key b.rows }

/-- Rows of new and distinct member keys all join, and the first title
    stays. -/
theorem foldl_addRow {rows : List Row} {g : Text} {b : Block}
    (nodup : ((b.rows ++ rows.map (asMember g)).map Row.key).Nodup) :
    rows.foldl
        (fun b r => (b.backfillComment ((s.banner? r.key).getD [])).addRow (asMember g r)) b =
      { b with comment := if b.comment.isEmpty then s.titleOf rows else b.comment,
               rows := b.rows ++ rows.map (asMember g) } := by
  induction rows generalizing b with
  | nil =>
    obtain ⟨name, comment, rows⟩ := b
    cases comment <;> simp [titleOf]
  | cons r rows ih =>
    have frame := b.backfillComment_frame ((s.banner? r.key).getD [])
    generalize hb' : b.backfillComment ((s.banner? r.key).getD []) = b' at frame
    obtain ⟨hname, hrows, hcomment⟩ := frame
    rw [List.map_cons] at nodup
    -- no row of the block has the key of the new one
    have hnew : b'.member? (asMember g r).key = none := by
      refine List.find?_eq_none.2 fun o ho e => ?_
      rw [hrows] at ho
      have apart := (List.nodup_append.1 (List.map_append ▸ nodup)).2.2
      exact apart _ (List.mem_map_of_mem ho) (asMember g r).key (by simp) (beq_iff_eq.1 e)
    have hadd : b'.addRow (asMember g r) =
        { b' with rows := b'.rows ++ [asMember g r] } := by
      unfold Block.addRow
      rw [hnew]
    have htitle : (if b'.comment.isEmpty then s.titleOf rows else b'.comment) =
        if b.comment.isEmpty then s.titleOf (r :: rows) else b.comment := by
      rw [hcomment]
      cases hc : b.comment with
      | cons c cs => rfl
      | nil =>
        cases hb : s.banner? r.key with
        | none => simp [titleOf, hb]
        | some t =>
          cases t with
          | nil => simp [titleOf, hb]
          | cons c cs => simp [s.titleOf_cons hb]
    rw [List.foldl_cons, hb', hadd, ih (by rw [hrows]; simpa using nodup)]
    simp only [hname, hrows, htitle, List.map_cons, List.append_assoc, List.singleton_append]

/-- **No member is refused.**  Put together row by row, a block is the block of
    its whole group. -/
theorem collect_eq (h : s.Normal) {g : Text} (hg : g ∈ s.blockNames l) :
    s.collect g = s.blockOf g := by
  obtain ⟨⟨r, hr, hgroup⟩, -, -⟩ := s.group_of_mem_blockNames l hg
  have isGroup := isGroup_of_mem_blockNames hg
  obtain ⟨⟨g', m⟩, hm, hgg⟩ := Option.map_eq_some_iff.1 hgroup
  obtain rfl : g' = g := hgg
  have name : Key.normalize g' = g' := Key.normalize_of_split? (h r hr) hm
  have ascending := ascending_blockOf (s := s) isGroup
  have nodup : ((s.blockOf g').rows.map Row.key).Nodup := by
    refine List.pairwise_map.2 (ascending.imp fun {a b} hab e => ?_)
    rw [e] at hab
    exact Text.precedes_irrefl _ hab
  unfold collect
  rw [foldl_addRow (b := Block.ofName g') nodup]
  simp only [Block.ofName, List.isEmpty_nil, if_true, List.nil_append, name]
  show Block.mk g' _ (sortOn Row.key (s.blockOf g').rows) = s.blockOf g'
  rw [sortOn_eq_self ascending]
  rfl

/-! ## The law of arranging -/

/-- **Arranging groups the rows, and loses none.**  A document holds the rows
    of the set, grouped and in order, exactly if it is the arrangement; and each
    of its blocks is what its members, put in one by one, make of it. -/
theorem grouped_iff (h : s.Normal) (l : Layout) :
    (∀ d, s.Grouped l d ↔ d = s.arrange l) ∧
      ∀ b ∈ (s.arrange l).blocks, s.collect b.name = b := by
  constructor
  · intro d
    constructor
    · intro hd
      exact hd.unique (s.grouped_arrange l)
    · rintro rfl
      exact s.grouped_arrange l
  · intro b hb
    obtain ⟨g, hg, rfl⟩ := mem_blocks_arrange.1 hb
    exact collect_eq h hg

/-- A threshold of one: the group `A` has a member without a name and forms a
    block behind the loose row `A`, the group `B` is too small, and a leading
    underscore names no group.  The second member has the first banner with
    text. -/
theorem grouped_iff_threshold :
    let row (key value : String) : Row := { key := key.toList, value := value.toList }
    let s : RowSet :=
      { rows := .ofList [row "A" "0", row "A_" "1", row "A_C" "2", row "A_B_D" "3", row "B_E" "4",
          row "_A" "5"],
        banners := .ofList [("A_".toList, []), ("A_B_D".toList, "first".toList),
          ("A_C".toList, "second".toList)] }
    s.Normal ∧
      s.arrange { groupThreshold := 1 } =
        { items :=
            [.row (row "A" "0"),
             .block { name := "A".toList, comment := "first".toList,
                      rows := [row "" "1", row "B_D" "3", row "C" "2"] },
             .row (row "B_E" "4"), .row (row "_A" "5")] } ∧
      s.Grouped { groupThreshold := 1 } (s.arrange { groupThreshold := 1 }) ∧
      (s.collect "A".toList).rows.length = 3 := by
  intro row s
  have hs : s.Normal := by decide +kernel
  obtain ⟨unique, collected⟩ := grouped_iff hs { groupThreshold := 1 }
  have harr : s.arrange { groupThreshold := 1 } =
      { items :=
          [.row (row "A" "0"),
           .block { name := "A".toList, comment := "first".toList,
                    rows := [row "" "1", row "B_D" "3", row "C" "2"] },
           .row (row "B_E" "4"), .row (row "_A" "5")] } := by
    decide +kernel
  refine ⟨hs, harr, (unique _).2 rfl, ?_⟩
  let a : Block :=
    { name := "A".toList, comment := "first".toList,
      rows := [row "" "1", row "B_D" "3", row "C" "2"] }
  have ha : a ∈ (s.arrange { groupThreshold := 1 }).blocks := by
    rw [harr]
    exact List.mem_cons_self
  rw [show s.collect "A".toList = a from collected a ha]
  rfl

end RowSet

end EnvFile
