import EnvFile.Proofs.Lasting

/-! # Whatever is made is sound

    Rows, blocks, row sets and documents are made by the operations of the
    library, from texts, from keys and values, and from one another.  `Made`
    lists these operations.

    A row of a block or document may be handed out to be changed in place.
    The operations on rows lead to any sound row of its key, and to no other
    (`Row.edit_iff`).  No operation gives a row another key.  A caller can do
    without operations and put some row in its place that was made elsewhere,
    which may give the block two rows of one key (`Made.not_distinct_of_overwrite`;
    exactly when, `Block.distinct_overwrite_iff`).

    * `Made.all`: what lasts holds of everything that is made.
    * `Made.sound`: the rows in it are sound, and no block in it has two rows
      of one key unless a row was put in place of another.
    * `Made.normal`: all keys and names in it are in normal form. -/

namespace EnvFile

/-- What callers of the library hold. -/
inductive Thing where
  | row (r : Row)
  | block (b : Block)
  | rowSet (s : RowSet)
  | document (d : Document)

namespace Thing

/-- An item is a row or a block. -/
def ofItem : Item → Thing
  | .row r => .row r
  | .block b => .block b

/-- All rows in it satisfy `P`, all names of blocks satisfy `N`, and under the
    condition `D` no two rows of a block have one key. -/
def All (D : Prop) (P : Row → Prop) (N : Text → Prop) : Thing → Prop
  | row r => P r
  | block b => b.All D P N
  | rowSet s => s.All P
  | document d => d.All D P N

/-- All rows in it are sound. -/
def Sound : Thing → Prop
  | row r => r.Sound
  | block b => ∀ r ∈ b.rows, r.Sound
  | rowSet s => ∀ r ∈ s.rows.toList, r.Sound
  | document d => (∀ r ∈ d.looseRows, r.Sound) ∧ ∀ b ∈ d.blocks, ∀ r ∈ b.rows, r.Sound

/-- No two rows of a block in it have one key. -/
def Distinct : Thing → Prop
  | row _ => True
  | block b => b.Distinct
  | rowSet _ => True
  | document d => ∀ b ∈ d.blocks, b.Distinct

/-- All keys and names in it are such as normalising leaves alone. -/
def Normal : Thing → Prop
  | row r => Key.normalize r.key = r.key
  | block b => (Item.block b).Normal
  | rowSet s => s.Normal
  | document d => d.Normal

end Thing

/-- What a caller does with a row that is handed out to be changed. -/
inductive Access where
  /-- It is changed by the operations on rows. -/
  | edit
  /-- Any row that is made may also be put in its place. -/
  | overwrite

/-- What is made by the operations of the library, by callers of a kind.  A
    change of a row in place is any number of operations on it; a change of a
    block in a document leads to any block that is made. -/
inductive Made (access : Access) : Thing → Prop where
  -- rows
  | ofPair (key value : Text) : Made access (.row (.ofPair key value))
  | editRow {r : Row} (made : Made access (.row r)) (edits : List Row.Edit) :
      Made access (.row (r.edit edits))
  -- blocks
  | ofName (name : Text) : Made access (.block (.ofName name))
  | setComment {b : Block} (made : Made access (.block b)) (comment : Text) :
      Made access (.block (b.setComment comment))
  | setName {b : Block} (made : Made access (.block b)) (name : Text) :
      Made access (.block (b.setName name))
  | addRow {b : Block} {r : Row} (made : Made access (.block b)) (row : Made access (.row r)) :
      Made access (.block (b.addRow r))
  | addRows {b : Block} {rows : List Row} (made : Made access (.block b))
      (each : ∀ r ∈ rows, Made access (.row r)) : Made access (.block (b.addRows rows))
  | addPrefixedRow {b : Block} {r : Row} (made : Made access (.block b))
      (row : Made access (.row r)) : Made access (.block (b.addPrefixedRow r))
  | addPrefixedRows {b : Block} {rows : List Row} (made : Made access (.block b))
      (each : ∀ r ∈ rows, Made access (.row r)) : Made access (.block (b.addPrefixedRows rows))
  | mergeRow {b : Block} {r : Row} (made : Made access (.block b)) (row : Made access (.row r)) :
      Made access (.block (b.mergeRow r))
  | addBlock {b other : Block} (made : Made access (.block b))
      (other_made : Made access (.block other)) : Made access (.block (b.add other))
  | mergeBlock {b other : Block} (made : Made access (.block b))
      (other_made : Made access (.block other)) : Made access (.block (b.merge other))
  | removeRow {b : Block} (made : Made access (.block b)) (key : Text) :
      Made access (.block (b.removeRow key).2)
  | removePrefixedRow {b : Block} (made : Made access (.block b)) (key : Text) :
      Made access (.block (b.removePrefixedRow key).2)
  | removeRowAt {b : Block} (made : Made access (.block b)) (index : Nat) :
      Made access (.block (b.removeAt index).2)
  | modifyRow {b : Block} (made : Made access (.block b)) (edits : List Row.Edit) (key : Text) :
      Made access (.block (b.modifyRow key (·.edit edits)))
  | modifyPrefixedRow {b : Block} (made : Made access (.block b)) (edits : List Row.Edit)
      (key : Text) : Made access (.block (b.modifyPrefixedRow key (·.edit edits)))
  | mapRows {b : Block} (made : Made access (.block b)) (edits : Row → List Row.Edit) :
      Made access (.block (b.mapRows fun r => r.edit (edits r)))
  | overwriteRow {b : Block} {r : Row} (may : access = .overwrite) (made : Made access (.block b))
      (row : Made access (.row r)) (key : Text) :
      Made access (.block (b.modifyRow key fun _ => r))
  | overwritePrefixedRow {b : Block} {r : Row} (may : access = .overwrite)
      (made : Made access (.block b)) (row : Made access (.row r)) (key : Text) :
      Made access (.block (b.modifyPrefixedRow key fun _ => r))
  | overwriteRows {b : Block} {f : Row → Row} (may : access = .overwrite)
      (made : Made access (.block b)) (each : ∀ r ∈ b.rows, Made access (.row (f r))) :
      Made access (.block (b.mapRows f))
  -- row sets
  | emptySet : Made access (.rowSet {})
  | ofRows {rows : List Row} (each : ∀ r ∈ rows, Made access (.row r)) :
      Made access (.rowSet (.ofRows rows))
  | rowsOfPairs (pairs : List (Text × Text)) : Made access (.rowSet (.ofPairs pairs))
  | rowsOfText {layout : Layout} {t : Text} {s : RowSet} (ok : RowSet.ofText layout t = .ok s) :
      Made access (.rowSet s)
  | rowsOfBytes {layout : Layout} {bytes : List UInt8} {s : RowSet}
      (ok : RowSet.ofBytes layout bytes = .ok s) : Made access (.rowSet s)
  | insert {s : RowSet} {r : Row} (made : Made access (.rowSet s)) (row : Made access (.row r)) :
      Made access (.rowSet (s.insert r))
  | mergeSet {s later : RowSet} (made : Made access (.rowSet s))
      (later_made : Made access (.rowSet later)) : Made access (.rowSet (s.merge later))
  -- documents
  | empty : Made access (.document {})
  | ofItems {items : List Item} (each : ∀ i ∈ items, Made access (.ofItem i)) :
      Made access (.document { items })
  | ofPairs (pairs : List (Text × Text)) (layout : Layout) :
      Made access (.document (.ofPairs pairs layout))
  | ofText {layout : Layout} {t : Text} {d : Document} (ok : Document.ofText layout t = .ok d) :
      Made access (.document d)
  | ofBytes {layout : Layout} {bytes : List UInt8} {d : Document}
      (ok : Document.ofBytes layout bytes = .ok d) : Made access (.document d)
  | arrange {s : RowSet} (made : Made access (.rowSet s)) (layout : Layout) :
      Made access (.document (s.arrange layout))
  | add {d : Document} {i : Item} (made : Made access (.document d))
      (item : Made access (.ofItem i)) : Made access (.document (d.add i))
  | addItems {d : Document} {items : List Item} (made : Made access (.document d))
      (each : ∀ i ∈ items, Made access (.ofItem i)) : Made access (.document (d.addItems items))
  | mergeItem {d : Document} {i : Item} (made : Made access (.document d))
      (item : Made access (.ofItem i)) : Made access (.document (d.mergeItem i))
  | mergeItems {d : Document} {items : List Item} (made : Made access (.document d))
      (each : ∀ i ∈ items, Made access (.ofItem i)) : Made access (.document (d.mergeItems items))
  | merge {d other : Document} (made : Made access (.document d))
      (other_made : Made access (.document other)) : Made access (.document (d.merge other))
  | sort {d : Document} (made : Made access (.document d)) : Made access (.document d.sort)
  | removeFrom {d : Document} (made : Made access (.document d)) (key : Text) :
      Made access (.document (d.removeRow key).2)
  | removeBlock {d : Document} (made : Made access (.document d)) (name : Text) :
      Made access (.document (d.removeBlock name).2)
  | removeAt {d : Document} (made : Made access (.document d)) (index : Nat) :
      Made access (.document (d.removeAt index).2)
  | modifyIn {d : Document} (made : Made access (.document d)) (edits : List Row.Edit)
      (key : Text) : Made access (.document (d.modifyRow key (·.edit edits)))
  | overwriteIn {d : Document} {r : Row} (may : access = .overwrite)
      (made : Made access (.document d)) (row : Made access (.row r)) (key : Text) :
      Made access (.document (d.modifyRow key fun _ => r))
  | modifyBlock {d : Document} {f : Block → Block} (made : Made access (.document d))
      (each : ∀ b ∈ d.blocks, Made access (.block (f b))) (name : Text) :
      Made access (.document (d.modifyBlock name f))
  -- what is taken out
  | rowOfBlock {b : Block} {r : Row} (made : Made access (.block b)) (mem : r ∈ b.rows) :
      Made access (.row r)
  | rowOfSet {s : RowSet} {r : Row} (made : Made access (.rowSet s)) (mem : r ∈ s.rows.toList) :
      Made access (.row r)
  | itemOfDocument {d : Document} {i : Item} (made : Made access (.document d))
      (mem : i ∈ d.items) : Made access (.ofItem i)

variable {access : Access} {D : Prop} {P : Row → Prop} {N : Text → Prop}

theorem Thing.all_ofItem {i : Item} : (Thing.ofItem i).All D P N ↔ i.All D P N := by
  cases i <;> rfl

/-- What lasts holds of everything that is made, and the keys of a block are
    distinct unless rows are put in place of others. -/
theorem Made.all (h : Lasting P N) {x : Thing} (made : Made access x) :
    x.All (access = .edit) P N := by
  -- by induction on how the thing was made, one case for each operation
  induction made with
  | ofPair key value => exact h.ofPair key value
  | editRow _ edits ih => exact h.edit ih edits
  | ofName name => exact .ofName h name
  | setComment _ comment ih => exact ih.setComment comment
  | setName _ name ih => exact ih.setName h name
  | addRow _ _ ih row => exact ih.addRow row
  | addRows _ _ ih each => exact ih.addRows each
  | addPrefixedRow _ _ ih row => exact ih.addPrefixedRow h row
  | addPrefixedRows _ _ ih each => exact ih.addPrefixedRows h each
  | mergeRow _ _ ih row => exact ih.mergeRow h row
  | addBlock _ _ ih other => exact ih.add other
  | mergeBlock _ _ ih other => exact ih.merge h other
  | removeRow _ _ ih => exact ih.eraseMember _
  | removePrefixedRow _ _ ih => exact ih.eraseMember _
  | removeRowAt _ index ih => exact ih.sublist (List.eraseIdx_sublist ..)
  | modifyRow _ edits _ ih | modifyPrefixedRow _ edits _ ih =>
    exact ih.modifyMember (fun _ r => r.key_edit edits) (fun r hr => h.edit (ih.rows r hr) edits) _
  | mapRows _ edits ih =>
    exact ih.mapRows (fun _ r => r.key_edit _) fun r hr => h.edit (ih.rows r hr) _
  | overwriteRow may _ _ _ ih row | overwritePrefixedRow may _ _ _ ih row =>
    exact ih.modifyMember (fun he => nomatch he.symm.trans may) (fun _ _ => row) _
  | overwriteRows may _ _ ih each => exact ih.mapRows (fun he => nomatch he.symm.trans may) each
  | emptySet => exact .empty
  | ofRows _ each => exact .ofRows each
  | rowsOfPairs pairs => exact .ofPairs h pairs
  | rowsOfText ok => exact .ofText h ok
  | rowsOfBytes ok => exact .ofBytes h ok
  | insert _ _ ih row => exact ih.insert row
  | mergeSet _ _ ih later => exact ih.merge h later
  | empty => exact .empty
  | ofItems _ each => exact fun i hi => Thing.all_ofItem.1 (each i hi)
  | ofPairs pairs layout => exact (RowSet.All.ofPairs h pairs).arrange h layout
  | ofText ok => exact .ofText h ok
  | ofBytes ok => exact .ofBytes h ok
  | arrange _ layout ih => exact ih.arrange h layout
  | add _ _ ih item => exact ih.add h (Thing.all_ofItem.1 item)
  | addItems _ _ ih each => exact ih.addItems h fun i hi => Thing.all_ofItem.1 (each i hi)
  | mergeItem _ _ ih item => exact ih.mergeItem h (Thing.all_ofItem.1 item)
  | mergeItems _ _ ih each => exact ih.mergeItems h fun i hi => Thing.all_ofItem.1 (each i hi)
  | merge _ _ ih other => exact ih.mergeItems h other
  | sort _ ih => exact ih.sort
  | removeFrom _ _ ih => exact ih.erase _
  | removeBlock _ _ ih => exact ih.eraseNamed _
  | removeAt _ _ ih => exact ih.subset (List.eraseIdx_subset ..)
  | modifyIn _ edits _ ih =>
    exact ih.modify (fun _ r => r.key_edit edits) (fun i hi r hr => h.edit (ih.rows hi hr) edits) _
  | overwriteIn may _ _ _ ih row =>
    exact ih.modify (fun he => nomatch he.symm.trans may) (fun _ _ _ _ => row) _
  | modifyBlock _ _ _ ih each => exact ih.modifyNamed each _
  | rowOfBlock _ mem ih => exact ih.rows _ mem
  | rowOfSet _ mem ih => exact ih _ mem
  | itemOfDocument _ mem ih => exact Thing.all_ofItem.2 (ih _ mem)

/-! ## Soundness -/

/-- The operations on rows keep them sound. -/
theorem Row.lasting_sound : Lasting Row.Sound fun _ => True where
  ofPair := Row.sound_ofPair
  setValue := Row.Sound.setValue
  setComment := Row.Sound.setComment
  setDisabled := Row.Sound.setDisabled
  addShadow := Row.Sound.addShadow
  member h _ := ⟨h.nodup, h.value_not_mem, h.disabled⟩
  name _ := trivial
  group _ _ := trivial

/-- **What edits of a row lead to** are the sound rows of its key. -/
theorem Row.edit_iff {r r' : Row} (h : r.Sound) :
    (∃ edits, r.edit edits = r') ↔ r'.Sound ∧ r'.key = r.key := by
  constructor
  · rintro ⟨edits, rfl⟩
    exact ⟨Row.lasting_sound.edit h edits, r.key_edit edits⟩
  · rintro ⟨sound, key⟩
    -- disabling forgets the shadows, and the rest is given anew
    refine ⟨[.setDisabled true, .setDisabled r'.disabled, .setValue r'.value,
      .addShadows r'.shadows, .setComment r'.comment], ?_⟩
    obtain ⟨k, value, comment, disabled, shadows⟩ := r'
    subst key
    show (Row.addShadows { r with disabled, value, shadows := _ } shadows).setComment comment = _
    cases disabled with
    | true =>
      rw [show shadows = [] from sound.disabled rfl]
      rfl
    | false =>
      rw [@addShadows_of_others _ rfl [] rfl, List.nil_append]
      simp only [setComment, Row.mk.injEq, true_and]
      exact sound.others_eq

/-- **A row put in place of another** leaves the keys of a block distinct
    exactly if it has the key of that row or one that no row of the block
    has. -/
theorem Block.distinct_overwrite_iff {b : Block} (h : b.Distinct) {m : Text} {old : Row}
    (found : b.member? m = some old) (r : Row) :
    (b.modifyMember m fun _ => r).Distinct ↔ r.key = m ∨ b.member? r.key = none := by
  obtain ⟨hm, above, below, cut, before⟩ := List.find?_eq_some_iff_append.1 found
  have key : old.key = m := by simpa using hm
  -- the keys beside that of the row are what they were
  have keys (s : Row) : Distinct { b with rows := above ++ s :: below } ↔
      s.key ∉ (above ++ below).map Row.key ∧ ((above ++ below).map Row.key).Nodup := by
    simp only [Distinct, List.map_append, List.map_cons, List.nodup_middle, List.nodup_cons]
  have own := (keys old).1 (by rwa [← cut])
  have after : b.modifyMember m (fun _ => r) = { b with rows := above ++ r :: below } := by
    have passed : ∀ s ∈ above, (s.key == m) = false := by simpa using before
    unfold modifyMember
    rw [cut, updateFirst_append_cons passed hm]
  have free : b.member? r.key = none ↔ r.key ≠ m ∧ r.key ∉ (above ++ below).map Row.key := by
    rw [member?_eq_none_iff, cut, ← key]
    simp only [List.map_append, List.map_cons, List.mem_append, List.mem_cons]
    tauto
  rw [after, keys, free, and_iff_left own.2]
  by_cases hr : r.key = m
  · simpa [hr, ← key] using own.1
  · simp [hr]

/-- A block with two rows of one key, after a new row was put in place of the
    second one. -/
theorem Made.not_distinct_of_overwrite :
    let b := (Block.ofName "app".toList).addRows
      [.ofPair "a".toList "1".toList, .ofPair "b".toList "2".toList]
    let other := b.modifyRow "b".toList fun _ => .ofPair "a".toList "3".toList
    Made .overwrite (.block other) ∧ ¬ (Thing.block other).Distinct ∧
      other.rows = [.ofPair "a".toList "1".toList, .ofPair "a".toList "3".toList] := by
  intro b other
  have made : Made .overwrite (.block b) := (Made.ofName _).addRows fun r hr => by
    rcases List.mem_pair.1 hr with rfl | rfl <;> exact .ofPair _ _
  refine ⟨made.overwriteRow rfl (.ofPair _ _) _, ?_, by decide +kernel⟩
  show ¬ (other.rows.map Row.key).Nodup
  decide +kernel

/-! ## Keys in normal form -/

theorem Row.lasting_normal : Lasting (fun r => Key.normalize r.key = r.key)
    fun name => Key.normalize name = name where
  ofPair _ _ := Key.normalize_normalize _
  setValue h _ := h
  setComment h _ := h
  setDisabled h _ := h
  addShadow {r} h v := by
    rw [(r.addShadow_frame v).1]
    exact h
  member h hm := Key.normalize_of_member? h hm
  name _ := Key.normalize_normalize _
  group h hs := Key.normalize_of_split? h hs

theorem Document.All.normal {d : Document}
    (all : d.All D (fun r => Key.normalize r.key = r.key) fun name => Key.normalize name = name) :
    d.Normal := by
  intro i hi
  cases i with
  | row r => exact ⟨all.row hi, fun s hs => List.mem_singleton.1 hs ▸ all.row hi⟩
  | block b => exact ⟨(all.block hi).name, (all.block hi).rows⟩

/-- Everything that is made has its keys and names in normal form. -/
theorem Made.normal {x : Thing} (made : Made access x) : x.Normal := by
  have all := made.all Row.lasting_normal
  cases x with
  | row r => exact all
  | block b => exact ⟨all.name, all.rows⟩
  | rowSet s => exact all
  | document d => exact Document.All.normal all

end EnvFile
