import EnvFile.Document.Merge
import EnvFile.Document.Read
import EnvFile.Proofs.CleanReading
import EnvFile.Proofs.Families
import EnvFile.Proofs.Precedence

/-! # What lasts

    A property of rows *lasts* if new rows have it and no operation on rows
    takes it away.  Then it holds of the rows in everything that is made of
    rows: no operation on blocks, row sets, readers or documents makes a row in
    a way of its own.

    Names of blocks are treated alongside, and so is that no two rows of a
    block have one key.  This last is asked for under a condition `D` only: it
    is lost where a row is put in place of a row of another key, and the rest
    is not.  There is one lemma for each operation. -/

namespace EnvFile

/-- New rows satisfy `P`, and the operations on rows keep it; names of blocks
    satisfy `N`, whether they come from outside or from the key of a row. -/
structure Lasting (P : Row → Prop) (N : Text → Prop) : Prop where
  ofPair : ∀ key value, P (Row.ofPair key value)
  setValue : ∀ {r : Row}, P r → ∀ value, P (r.setValue value)
  setComment : ∀ {r : Row}, P r → ∀ comment, P (r.setComment comment)
  setDisabled : ∀ {r : Row}, P r → ∀ disabled, P (r.setDisabled disabled)
  addShadow : ∀ {r : Row}, P r → ∀ value, P (r.addShadow value)
  /-- A row may go by the key of a member. -/
  member : ∀ {r : Row} {group m : Text}, P r → Key.member? group r.key = some m →
    P { r with key := m }
  name : ∀ text, N (Key.normalize text)
  group : ∀ {r : Row} {group m : Text}, P r → Key.split? r.key = some (group, m) → N group

variable {D : Prop} {P : Row → Prop} {N : Text → Prop}

/-! ## Rows -/

/-- An operation that changes a row in place. -/
inductive Row.Edit where
  | setValue (value : Text)
  | setComment (comment : Text)
  | setDisabled (disabled : Bool)
  | addShadow (value : Text)
  | addShadows (values : List Text)
  | merge (other : Row)

/-- The row after an operation. -/
def Row.Edit.apply (r : Row) : Edit → Row
  | setValue value => r.setValue value
  | setComment comment => r.setComment comment
  | setDisabled disabled => r.setDisabled disabled
  | addShadow value => r.addShadow value
  | addShadows values => r.addShadows values
  | merge other => r.merge other

/-- The row after operations, one after the other. -/
def Row.edit (r : Row) (edits : List Edit) : Row :=
  edits.foldl Edit.apply r

namespace Lasting

variable (h : Lasting P N) {r : Row}

include h

theorem addShadows (hr : P r) (values : List Text) : P (r.addShadows values) := by
  unfold Row.addShadows
  induction values generalizing r with
  | nil => exact hr
  | cons v values ih => exact ih (h.addShadow hr v)

theorem backfillComment (hr : P r) (comment : Text) : P (r.backfillComment comment) := by
  unfold Row.backfillComment
  split
  · exact h.setComment hr comment
  · exact hr

theorem merge (hr : P r) (other : Row) : P (r.merge other) :=
  h.backfillComment (h.addShadows (h.setValue hr _) _) _

theorem asMember {group : Text} (hr : P r) : P (RowSet.asMember group r) := by
  unfold RowSet.asMember
  cases hm : Key.member? group r.key with
  | none => exact hr
  | some m => exact h.member hr hm

theorem edit (hr : P r) (edits : List Row.Edit) : P (r.edit edits) := by
  unfold Row.edit
  induction edits generalizing r with
  | nil => exact hr
  | cons e edits ih =>
    apply ih
    cases e with
    | setValue value => exact h.setValue hr value
    | setComment comment => exact h.setComment hr comment
    | setDisabled disabled => exact h.setDisabled hr disabled
    | addShadow value => exact h.addShadow hr value
    | addShadows values => exact h.addShadows hr values
    | merge other => exact h.merge hr other

end Lasting

/-- That a row has a certain key lasts, unless it becomes a member. -/
theorem Row.key_edit (r : Row) (edits : List Edit) : (r.edit edits).key = r.key := by
  unfold edit
  induction edits generalizing r with
  | nil => rfl
  | cons e edits ih =>
    refine (ih _).trans ?_
    cases e with
    | addShadow value => exact (r.addShadow_frame value).1
    | addShadows values => exact (r.addShadows_frame values).1
    | merge other => exact (r.merge_frame other).1
    | _ => rfl

/-! ## Blocks -/

/-- The rows of a block satisfy `P`, its name satisfies `N`, and under the
    condition `D` no two rows have one key. -/
structure Block.All (D : Prop) (P : Row → Prop) (N : Text → Prop) (b : Block) : Prop where
  distinct : D → b.Distinct
  name : N b.name
  rows : ∀ r ∈ b.rows, P r

namespace Block.All

variable {b : Block} (hb : b.All D P N)

theorem ofName (h : Lasting P N) (name : Text) : (Block.ofName name).All D P N :=
  ⟨fun _ => distinct_ofName name, h.name name, fun _ hr => nomatch hr⟩

include hb

theorem setName (h : Lasting P N) (name : Text) : (b.setName name).All D P N :=
  ⟨hb.distinct, h.name name, hb.rows⟩

theorem setComment (comment : Text) : (b.setComment comment).All D P N :=
  ⟨hb.distinct, hb.name, hb.rows⟩

theorem backfillComment (comment : Text) : (b.backfillComment comment).All D P N := by
  unfold Block.backfillComment
  split
  · exact ⟨hb.distinct, hb.name, hb.rows⟩
  · exact hb

theorem append {r : Row} (hr : P r) (new : b.member? r.key = none) :
    Block.All D P N { b with rows := b.rows ++ [r] } :=
  ⟨fun hd => (hb.distinct hd).append new, hb.name,
    List.forall_mem_append.2 ⟨hb.rows, List.forall_mem_singleton.2 hr⟩⟩

theorem addRow {r : Row} (hr : P r) : (b.addRow r).All D P N := by
  unfold Block.addRow
  split
  · exact hb
  · rename_i new
    exact hb.append hr new

theorem addRows {rows : List Row} (hrows : ∀ r ∈ rows, P r) : (b.addRows rows).All D P N := by
  unfold Block.addRows
  induction rows generalizing b with
  | nil => exact hb
  | cons r rows ih =>
    have ⟨hr, hrows⟩ := List.forall_mem_cons.1 hrows
    exact ih (hb.addRow hr) hrows

theorem addPrefixedRow (h : Lasting P N) {r : Row} (hr : P r) : (b.addPrefixedRow r).All D P N := by
  unfold Block.addPrefixedRow
  split
  · rename_i m hm
    exact hb.addRow (h.member hr hm)
  · exact hb

theorem addPrefixedRows (h : Lasting P N) {rows : List Row} (hrows : ∀ r ∈ rows, P r) :
    (b.addPrefixedRows rows).All D P N := by
  unfold Block.addPrefixedRows
  induction rows generalizing b with
  | nil => exact hb
  | cons r rows ih =>
    have ⟨hr, hrows⟩ := List.forall_mem_cons.1 hrows
    exact ih (hb.addPrefixedRow h hr) hrows

/-- A row may be changed, but not its key if keys are to stay distinct. -/
theorem modifyMember {f : Row → Row} (key : D → ∀ r, (f r).key = r.key)
    (hf : ∀ r ∈ b.rows, P (f r)) (m : Text) : (b.modifyMember m f).All D P N := by
  refine ⟨fun hd => (hb.distinct hd).modifyMember m (key hd), hb.name, fun r hr => ?_⟩
  rcases mem_updateFirst hr with hr | ⟨old, hold, rfl⟩
  · exact hb.rows r hr
  · exact hf old hold

theorem mapRows {f : Row → Row} (key : D → ∀ r, (f r).key = r.key)
    (hf : ∀ r ∈ b.rows, P (f r)) : (b.mapRows f).All D P N := by
  refine ⟨fun hd => ?_, hb.name, List.forall_mem_map.2 hf⟩
  have := hb.distinct hd
  unfold Distinct Block.mapRows at *
  rwa [List.map_map, show Row.key ∘ f = Row.key from funext (key hd)]

theorem mergeRow (h : Lasting P N) {r : Row} (hr : P r) : (b.mergeRow r).All D P N := by
  unfold Block.mergeRow
  split
  · exact hb.modifyMember (fun _ old => (old.merge_frame r).1)
      (fun old hold => h.merge (hb.rows old hold) r) r.key
  · rename_i new
    exact hb.append hr new

theorem mergeRows (h : Lasting P N) {rows : List Row} (hrows : ∀ r ∈ rows, P r) :
    (rows.foldl Block.mergeRow b).All D P N := by
  induction rows generalizing b with
  | nil => exact hb
  | cons r rows ih =>
    have ⟨hr, hrows⟩ := List.forall_mem_cons.1 hrows
    exact ih (hb.mergeRow h hr) hrows

theorem add {c : Block} (hc : c.All D P N) : (b.add c).All D P N :=
  (hb.addRows hc.rows).backfillComment _

theorem merge (h : Lasting P N) {c : Block} (hc : c.All D P N) : (b.merge c).All D P N :=
  (hb.mergeRows h hc.rows).backfillComment _

/-- Rows may go. -/
theorem sublist {rows : List Row} (hs : rows.Sublist b.rows) : Block.All D P N { b with rows } :=
  ⟨fun hd => (hb.distinct hd).sublist hs, hb.name, fun r hr => hb.rows r (hs.mem hr)⟩

theorem eraseMember (m : Text) : (b.eraseMember m).All D P N :=
  hb.sublist (List.eraseP_sublist ..)

end Block.All

/-! ## Row sets -/

/-- The rows of a row set satisfy `P`. -/
def RowSet.All (P : Row → Prop) (s : RowSet) : Prop :=
  ∀ r ∈ s.rows.toList, P r

namespace RowSet.All

theorem iff_find? {s : RowSet} : s.All P ↔ ∀ k r, s.find? k = some r → P r :=
  ⟨fun h _ r hr => h r (Catalog.mem_of_find? hr), fun h r hr => h _ r (s.mem_iff_find?.1 hr)⟩

theorem empty : RowSet.All P {} :=
  fun _ hr => nomatch hr

variable {s t : RowSet} (hs : s.All P)

theorem insert (hs : s.All P) {r : Row} (hr : P r) : (s.insert r).All P := by
  intro m hm
  rcases Catalog.mem_place hm with rfl | hm
  · exact hr
  · exact hs m hm

theorem ofRows {rows : List Row} (hrows : ∀ r ∈ rows, P r) : (RowSet.ofRows rows).All P := by
  have build : ∀ c : Catalog Row.key, (∀ r ∈ c.toList, P r) →
      ∀ r ∈ (rows.foldl Catalog.insert c).toList, P r := by
    intro c hc
    induction rows generalizing c with
    | nil => exact hc
    | cons r rows ih =>
      have ⟨hr, hrows⟩ := List.forall_mem_cons.1 hrows
      refine ih hrows _ fun m hm => ?_
      rcases Catalog.mem_place hm with rfl | hm
      · exact hr
      · exact hc m hm
  exact build .empty fun _ hr => nomatch hr

theorem ofPairs (h : Lasting P N) (pairs : List (Text × Text)) : (RowSet.ofPairs pairs).All P :=
  ofRows (List.forall_mem_map.2 fun p _ => h.ofPair p.1 p.2)

/-- Merging makes a row of two at most. -/
theorem merge (hs : s.All P) (h : Lasting P N) (ht : t.All P) : (s.merge t).All P := by
  refine iff_find?.2 fun k r hr => ?_
  -- under its key, the row is of one side, or made of one row of each
  rw [find?_merge] at hr
  cases he : s.find? k with
  | none =>
    rw [he] at hr
    exact iff_find?.1 ht k r hr
  | some earlier =>
    have hearlier := iff_find?.1 hs k earlier he
    cases hl : t.find? k with
    | none =>
      rw [he, hl] at hr
      cases hr
      exact hearlier
    | some later =>
      have hlater := iff_find?.1 ht k later hl
      rw [he, hl] at hr
      cases hr
      unfold supersede
      split
      · exact h.backfillComment hlater _
      · exact h.addShadow hearlier _
      · exact h.merge hearlier _

end RowSet.All

/-! ## Reading -/

namespace Reader

variable {s s' : Reader} (h : Lasting P N)

include h

theorem all_insert (hs : s.rows.All P) {r : Row} (hr : P r) : (s.insert r).rows.All P := by
  have old : ∀ {k o}, s.rows.find? k = some o → P o := fun ho => RowSet.All.iff_find?.1 hs _ _ ho
  cases hf : s.rows.find? r.key with
  | none =>
    rw [insert_of_new hf]
    exact hs.insert hr
  | some o =>
    -- a live or disabled row meets a live or disabled one
    cases ho : o.disabled <;> cases hd : r.disabled
    · rw [insert_live_of_live hf ho hd]
      exact hs.insert (h.backfillComment (h.addShadow (old hf) _) _)
    · rw [insert_disabled_of_live hf ho hd]
      exact hs.insert (h.addShadow (old hf) _)
    · rw [insert_live_of_disabled hf ho hd]
      exact hs.insert (h.backfillComment (h.addShadows (h.addShadow hr _) _) _)
    · rw [insert_disabled_of_disabled hf ho hd, rows_noteHistory]
      exact hs

theorem all_receive (hs : s.rows.All P) {r : Row} (hr : P r) : (s.receive r).rows.All P := by
  unfold receive
  refine all_insert h ?_ hr
  obtain ⟨hrows, -⟩ := ({ s with comments := [] } : Reader).placeBanner_frame r.key
  unfold RowSet.All
  rw [hrows]
  exact hs

theorem all_feed (hs : s.rows.All P) {layout : Layout} {g : Segment}
    (ok : s.feed layout g = .ok s') : s'.rows.All P := by
  cases fed_of_feed ok with
  | disabled => exact all_receive h hs (h.setDisabled (h.setComment (h.ofPair _ _) _) _)
  | live => exact all_receive h hs (h.setComment (h.ofPair _ _) _)
  | _ => exact hs

theorem all_feedAll (hs : s.rows.All P) {layout : Layout} {gs : List Segment}
    (ok : s.feedAll layout gs = .ok s') : s'.rows.All P :=
  feedAll_keeps (P := fun s => s.rows.All P) (fun _ _ _ _ hs ok => all_feed h hs ok) hs ok

end Reader

namespace RowSet.All

theorem ofText (h : Lasting P N) {layout : Layout} {t : Text} {s : RowSet}
    (ok : RowSet.ofText layout t = .ok s) : s.All P := by
  unfold RowSet.ofText at ok
  cases hf : Reader.feedAll layout {} (Segment.ofText t.normalizeNewlines) with
  | error e => rw [hf] at ok; cases ok
  | ok m =>
    rw [hf] at ok
    cases ok
    exact Reader.all_feedAll h empty hf

theorem ofBytes (h : Lasting P N) {layout : Layout} {bytes : List UInt8} {s : RowSet}
    (ok : RowSet.ofBytes layout bytes = .ok s) : s.All P := by
  unfold RowSet.ofBytes at ok
  split at ok
  · exact ofText h ok
  · cases ok

end RowSet.All

/-! ## Documents -/

/-- The rows and blocks of an item satisfy `P` and `N`. -/
def Item.All (D : Prop) (P : Row → Prop) (N : Text → Prop) : Item → Prop
  | .row r => P r
  | .block b => b.All D P N

/-- The items of a document satisfy `P` and `N`. -/
def Document.All (D : Prop) (P : Row → Prop) (N : Text → Prop) (d : Document) : Prop :=
  ∀ i ∈ d.items, i.All D P N

namespace Document.All

theorem empty : Document.All D P N {} :=
  fun _ hi => nomatch hi

variable {d : Document} (hd : d.All D P N)

include hd

theorem row {r : Row} (hr : Item.row r ∈ d.items) : P r :=
  hd _ hr

theorem block {b : Block} (hb : Item.block b ∈ d.items) : b.All D P N :=
  hd _ hb

theorem rows {i : Item} (hi : i ∈ d.items) {r : Row} (hr : r ∈ i.rows) : P r := by
  cases i with
  | row s => exact List.mem_singleton.1 hr ▸ hd.row hi
  | block b => exact (hd.block hi).rows r hr

theorem push {i : Item} (hi : i.All D P N) : (d.push i).All D P N :=
  List.forall_mem_append.2 ⟨hd, List.forall_mem_singleton.2 hi⟩

/-- Items may go. -/
theorem subset {items : List Item} (hs : items ⊆ d.items) : Document.All D P N { items } :=
  fun i hi => hd i (hs hi)

theorem sort : d.sort.All D P N :=
  hd.subset (sortOn_perm _).subset

theorem looseIn {name : Text} : ∀ r ∈ d.looseIn name, P r :=
  fun _ hr => hd.row (mem_looseRows_iff.1 (List.mem_filter.1 hr).1)

theorem eraseLooseIn (name : Text) : (d.eraseLooseIn name).All D P N :=
  hd.subset (List.filter_subset_self _)

theorem eraseNamed (name : Text) : (d.eraseNamed name).All D P N :=
  hd.subset (List.eraseP_subset ..)

theorem modifyNamed {f : Block → Block} (hf : ∀ b ∈ d.blocks, (f b).All D P N) (name : Text) :
    (d.modifyNamed name f).All D P N := by
  intro i hi
  rcases mem_updateFirst hi with hi | ⟨j, hj, rfl⟩
  · exact hd i hi
  · cases j with
    | row r => exact hd.row hj
    | block b => exact hf b (mem_blocks_iff.2 hj)

theorem modifyLoose {f : Row → Row} (hf : ∀ r ∈ d.looseRows, P (f r)) (key : Text) :
    (d.modifyLoose key f).All D P N := by
  intro i hi
  rcases mem_updateFirst hi with hi | ⟨j, hj, rfl⟩
  · exact hd i hi
  · cases j with
    | row r => exact hf r (mem_looseRows_iff.2 hj)
    | block b => exact hd.block hj

theorem modify {f : Row → Row} (key : D → ∀ r, (f r).key = r.key)
    (hf : ∀ i ∈ d.items, ∀ r ∈ i.rows, P (f r)) (k : Text) : (d.modify k f).All D P N := by
  unfold Document.modify
  split
  · refine hd.modifyNamed (fun b hb => ?_) _
    have hb := mem_blocks_iff.1 hb
    exact (hd.block hb).modifyMember key (hf _ hb) _
  · exact hd.modifyLoose (fun r hr => hf _ (mem_looseRows_iff.1 hr) r List.mem_cons_self) k

theorem erase (k : Text) : (d.erase k).All D P N := by
  unfold Document.erase
  split
  · exact hd.modifyNamed (fun b hb => (hd.block (mem_blocks_iff.1 hb)).eraseMember _) _
  · exact hd.subset (List.eraseP_subset ..)

/-! ### Taking items in -/

variable (h : Lasting P N)

include h

/-- The block that loose rows found. -/
theorem founded (group : Text) :
    ((Block.ofName group).addPrefixedRows (d.looseIn group)).All D P N :=
  (Block.All.ofName h group).addPrefixedRows h hd.looseIn

theorem putBlock {combine : Block → Block → Block}
    (hc : ∀ b c, b.All D P N → c.All D P N → (combine b c).All D P N) {b : Block}
    (hb : b.All D P N) : (d.putBlock combine b).All D P N := by
  unfold Document.putBlock
  split
  · exact hd.modifyNamed (fun c hm => hc c b (hd.block (mem_blocks_iff.1 hm)) hb) _
  · split
    · exact hd.push hb
    · exact (hd.eraseLooseIn _).push (hc _ b (hd.founded h _) hb)

theorem putMember {r : Row} (hr : P r) (group : Text) : (d.putMember group r).All D P N := by
  unfold Document.putMember
  split
  · exact hd.push hr
  · exact (hd.eraseLooseIn _).push ((hd.founded h _).addPrefixedRow h hr)

theorem addRow {r : Row} (hr : P r) : (d.addRow r).All D P N := by
  unfold Document.addRow
  split
  · exact hd
  · split
    · exact hd.push hr
    · split
      · exact hd.modifyNamed
          (fun b hb => (hd.block (mem_blocks_iff.1 hb)).addPrefixedRow h hr) _
      · exact hd.putMember h hr _

theorem mergeRow {r : Row} (hr : P r) : (d.mergeRow r).All D P N := by
  unfold Document.mergeRow
  split
  · -- the row that is there takes the other in
    exact hd.modify (fun _ old => (old.merge_frame r).1)
      (fun i hi old hold => h.merge (hd.rows hi hold) r) _
  · exact hd.addRow h hr

theorem add {i : Item} (hi : i.All D P N) : (d.add i).All D P N := by
  cases i with
  | row r => exact hd.addRow h hi
  | block b => exact hd.putBlock h (fun _ _ hb hc => hb.add hc) hi

theorem mergeItem {i : Item} (hi : i.All D P N) : (d.mergeItem i).All D P N := by
  cases i with
  | row r => exact hd.mergeRow h hi
  | block b => exact hd.putBlock h (fun _ _ hb hc => hb.merge h hc) hi

theorem addItems {items : List Item} (hi : ∀ i ∈ items, i.All D P N) :
    (d.addItems items).All D P N := by
  unfold Document.addItems
  induction items generalizing d with
  | nil => exact hd
  | cons i items ih =>
    have ⟨hi, rest⟩ := List.forall_mem_cons.1 hi
    exact ih (hd.add h hi) rest

theorem mergeItems {items : List Item} (hi : ∀ i ∈ items, i.All D P N) :
    (d.mergeItems items).All D P N := by
  unfold Document.mergeItems
  induction items generalizing d with
  | nil => exact hd
  | cons i items ih =>
    have ⟨hi, rest⟩ := List.forall_mem_cons.1 hi
    exact ih (hd.mergeItem h hi) rest

end Document.All

/-! ## Arranging -/

/-- Arranging puts every row into the document as it is, or under its member
    key. -/
theorem RowSet.All.arrange {s : RowSet} (hs : s.All P) (h : Lasting P N) (layout : Layout) :
    (s.arrange layout).All D P N := by
  intro i hi
  cases i with
  | row r => exact hs r (List.mem_filter.1 ((s.mem_items_arrange_row layout).1 hi)).1
  | block b =>
    have distinct := Document.distinct_of_nodup (s.nodup_keys_arrange layout) hi
    obtain ⟨g, hg, rfl⟩ := (s.mem_items_arrange_block layout).1 hi
    obtain ⟨⟨r, hr, hgr⟩, -⟩ := s.group_of_mem_blockNames layout hg
    obtain ⟨⟨g', m⟩, hm, rfl⟩ := Option.map_eq_some_iff.1 hgr
    -- the name is the group of a row of the set, the rows are rows of the set by other keys
    exact ⟨fun _ => distinct, h.group (hs r hr) hm,
      List.forall_mem_map.2 fun r hr => h.asMember (hs r (List.mem_filter.1 hr).1)⟩

namespace Document.All

theorem ofText (h : Lasting P N) {layout : Layout} {t : Text} {d : Document}
    (ok : Document.ofText layout t = .ok d) : d.All D P N := by
  unfold Document.ofText at ok
  cases hs : RowSet.ofText layout t with
  | error e => rw [hs] at ok; cases ok
  | ok s =>
    rw [hs] at ok
    cases ok
    exact (RowSet.All.ofText h hs).arrange h layout

theorem ofBytes (h : Lasting P N) {layout : Layout} {bytes : List UInt8} {d : Document}
    (ok : Document.ofBytes layout bytes = .ok d) : d.All D P N := by
  unfold Document.ofBytes at ok
  cases hs : RowSet.ofBytes layout bytes with
  | error e => rw [hs] at ok; cases ok
  | ok s =>
    rw [hs] at ok
    cases ok
    exact (RowSet.All.ofBytes h hs).arrange h layout

end Document.All

end EnvFile
