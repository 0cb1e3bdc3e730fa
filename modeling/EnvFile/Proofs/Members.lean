import EnvFile.Proofs.Lists
import EnvFile.RowSet.Arrangement

/-! # Members of blocks

    What the operations on a block do to each of its members, one lemma for
    every operation: `member?` after it in terms of `member?` before.  No
    operation but `setName` changes the name of a block, and none gives two of
    its rows one key. -/

namespace EnvFile

/-- Merging leaves the key and the state of a row alone. -/
@[simp] theorem Row.merge_frame (r other : Row) :
    (r.merge other).key = r.key ∧ (r.merge other).disabled = r.disabled ∧
      (r.merge other).value = other.value := by
  simp [merge, setValue]

namespace Row

/-! ## Rows under other keys -/

theorem rekey_addShadows (r : Row) (vs : List Text) (k : Text) :
    ({ r with key := k } : Row).addShadows vs = { r.addShadows vs with key := k } := by
  unfold addShadows
  induction vs generalizing r with
  | nil => rfl
  | cons v vs ih =>
    have step : ({ r with key := k } : Row).addShadow v = { r.addShadow v with key := k } := by
      unfold addShadow hasShadow
      dsimp only
      split <;> rfl
    rw [List.foldl_cons, List.foldl_cons, step]
    exact ih _

/-- Merging does not look at keys. -/
theorem rekey_merge (r other : Row) (k l : Text) :
    ({ r with key := k } : Row).merge { other with key := l } = { r.merge other with key := k } := by
  unfold merge
  show (({ r.setValue other.value with key := k } : Row).addShadows other.shadows).backfillComment
    other.comment = _
  rw [rekey_addShadows]
  unfold backfillComment
  dsimp only
  split <;> rfl

end Row

namespace Block

variable (b : Block) (m : Text)

/-! ## Names and comments -/

@[simp] theorem addRow_frame (r : Row) :
    (b.addRow r).name = b.name ∧ (b.addRow r).comment = b.comment := by
  unfold addRow
  split <;> exact ⟨rfl, rfl⟩

@[simp] theorem addRows_frame (rows : List Row) :
    (b.addRows rows).name = b.name ∧ (b.addRows rows).comment = b.comment := by
  unfold addRows
  induction rows generalizing b with
  | nil => exact ⟨rfl, rfl⟩
  | cons r rows ih => simpa using ih (b.addRow r)

@[simp] theorem mergeRow_frame (r : Row) :
    (b.mergeRow r).name = b.name ∧ (b.mergeRow r).comment = b.comment := by
  unfold mergeRow
  split <;> exact ⟨rfl, rfl⟩

@[simp] theorem mergeRows_frame (rows : List Row) :
    (rows.foldl mergeRow b).name = b.name ∧ (rows.foldl mergeRow b).comment = b.comment := by
  induction rows generalizing b with
  | nil => exact ⟨rfl, rfl⟩
  | cons r rows ih => simpa using ih (b.mergeRow r)

@[simp] theorem backfillComment_frame (c : Text) :
    (b.backfillComment c).name = b.name ∧ (b.backfillComment c).rows = b.rows ∧
      (b.backfillComment c).comment = if b.comment.isEmpty then c else b.comment := by
  unfold backfillComment
  split <;> exact ⟨rfl, rfl, rfl⟩

@[simp] theorem addPrefixedRow_frame (r : Row) :
    (b.addPrefixedRow r).name = b.name ∧ (b.addPrefixedRow r).comment = b.comment := by
  unfold addPrefixedRow
  split
  · exact b.addRow_frame _
  · exact ⟨rfl, rfl⟩

@[simp] theorem addPrefixedRows_frame (rows : List Row) :
    (b.addPrefixedRows rows).name = b.name ∧ (b.addPrefixedRows rows).comment = b.comment := by
  unfold addPrefixedRows
  induction rows generalizing b with
  | nil => exact ⟨rfl, rfl⟩
  | cons r rows ih => simpa using ih (b.addPrefixedRow r)

/-! ## Keys -/

theorem mem_keys_iff {m : Text} : m ∈ b.rows.map Row.key ↔ (b.member? m).isSome = true := by
  unfold member?
  rw [List.find?_isSome]
  simp

theorem Distinct.member?_of_mem {b : Block} (h : b.Distinct) {r : Row} (hr : r ∈ b.rows) :
    b.member? r.key = some r := by
  unfold member?
  rw [← List.head?_filter, filter_eq_singleton h hr]
  rfl

theorem Distinct.addRows {b : Block} (h : b.Distinct) (rows : List Row) :
    (b.addRows rows).Distinct := by
  unfold Block.addRows
  induction rows generalizing b with
  | nil => exact h
  | cons r rows ih => exact ih (h.addRow r)

theorem Distinct.mergeRow {b : Block} (h : b.Distinct) (r : Row) : (b.mergeRow r).Distinct := by
  unfold Block.mergeRow
  split
  · exact h.modifyMember _ fun r' => (r'.merge_frame r).1
  · rename_i hr
    exact h.append hr

theorem Distinct.mergeRows {b : Block} (h : b.Distinct) (rows : List Row) :
    (rows.foldl Block.mergeRow b).Distinct := by
  induction rows generalizing b with
  | nil => exact h
  | cons r rows ih => exact ih (h.mergeRow r)

theorem Distinct.of_rows_eq {b c : Block} (h : b.Distinct) (e : c.rows = b.rows) : c.Distinct := by
  unfold Distinct
  rw [e]
  exact h

theorem Distinct.backfillComment {b : Block} (h : b.Distinct) (c : Text) :
    (b.backfillComment c).Distinct :=
  h.of_rows_eq (b.backfillComment_frame c).2.1

theorem Distinct.add {b : Block} (h : b.Distinct) (other : Block) : (b.add other).Distinct :=
  (h.addRows _).backfillComment _

theorem Distinct.merge {b : Block} (h : b.Distinct) (other : Block) : (b.merge other).Distinct :=
  (h.mergeRows _).backfillComment _

theorem Distinct.sublist {b : Block} (h : b.Distinct) {rows : List Row} (hs : rows.Sublist b.rows) :
    Distinct { b with rows } :=
  (hs.map Row.key).nodup h

theorem distinct_ofName (name : Text) : (ofName name).Distinct :=
  List.nodup_nil

/-! ## Members -/

theorem member?_of_rows_eq {b c : Block} (e : c.rows = b.rows) : c.member? m = b.member? m := by
  unfold member?
  rw [e]

theorem member?_append (rows : List Row) :
    member? { b with rows := b.rows ++ rows } m =
      (b.member? m).or (rows.find? (·.key == m)) :=
  List.find?_append

theorem find?_singleton (r : Row) :
    [r].find? (·.key == m) = if r.key = m then some r else none := by
  by_cases h : r.key = m <;> simp [h]

theorem member?_addRow (r : Row) :
    (b.addRow r).member? m = (b.member? m).or (if r.key = m then some r else none) := by
  unfold addRow
  cases h : b.member? r.key with
  | some old =>
    by_cases hm : r.key = m
    · rw [← hm, h]
      rfl
    · rw [if_neg hm, Option.or_none]
  | none => rw [member?_append, find?_singleton]

theorem member?_addRows (rows : List Row) :
    (b.addRows rows).member? m = (b.member? m).or (rows.find? (·.key == m)) := by
  unfold addRows
  induction rows generalizing b with
  | nil => simp
  | cons r rows ih =>
    rw [List.foldl_cons, ih, member?_addRow, Option.or_assoc, ← find?_singleton,
      ← List.find?_append, List.singleton_append]

theorem member?_modifyMember {b : Block} {k : Text} {f : Row → Row} (hf : ∀ r, (f r).key = r.key) :
    (b.modifyMember k f).member? m =
      if k = m then (b.member? m).map f else b.member? m := by
  unfold member? modifyMember
  by_cases h : k = m
  · subst h
    rw [if_pos rfl, find?_updateFirst fun r hr => by rw [hf]; exact hr]
  · -- the first row of another key is no row of this one, changed or not
    have apart : ∀ r : Row, (r.key == k) = true →
        (r.key == m) = false ∧ ((f r).key == m) = false := by
      intro r hr
      have hne : r.key ≠ m := fun e => h ((beq_iff_eq.1 hr).symm.trans e)
      simp [hf, hne]
    rw [if_neg h, ← List.head?_filter, ← List.head?_filter,
      filter_updateFirst_of_not fun r _ => apart r]

theorem member?_eraseMember {b : Block} (h : b.Distinct) (key : Text) :
    (b.eraseMember key).member? m = if key = m then none else b.member? m := by
  unfold member? eraseMember
  rw [← List.head?_filter, ← List.head?_filter]
  by_cases hm : key = m
  · subst hm
    rw [if_pos rfl, filter_eraseP fun _ => id]
    cases hf : b.rows.filter (·.key == key) with
    | nil => rfl
    | cons r rows =>
      -- no second row has the key
      have hr : r ∈ b.rows ∧ (r.key == key) = true := List.mem_filter.1 (hf ▸ List.mem_cons_self)
      have one := filter_eq_singleton h hr.1
      rw [beq_iff_eq.1 hr.2, hf] at one
      simp [one, beq_iff_eq.1 hr.2]
  · have apart : ∀ r : Row, (r.key == key) = true → (r.key == m) = false := by
      intro r hr
      have hne : r.key ≠ m := fun e => hm ((beq_iff_eq.1 hr).symm.trans e)
      simpa using hne
    rw [if_neg hm, filter_eraseP_of_not apart]

/-- Merging a row changes the member of its key only. -/
theorem member?_mergeRow (r : Row) :
    (b.mergeRow r).member? m =
      Option.merge Row.merge (b.member? m) (if r.key = m then some r else none) := by
  unfold mergeRow
  cases h : b.member? r.key with
  | some old =>
    have := member?_modifyMember (b := b) m (k := r.key) (f := (·.merge r))
      fun r' => (r'.merge_frame r).1
    rw [this]
    by_cases hm : r.key = m
    · simp [← hm, h]
    · simp [hm]
  | none =>
    rw [member?_append, find?_singleton]
    by_cases hm : r.key = m
    · simp [← hm, h]
    · simp [hm]

/-- Rows of distinct keys are merged member by member. -/
theorem member?_mergeRows {rows : List Row} (h : (rows.map Row.key).Nodup) :
    (rows.foldl mergeRow b).member? m =
      Option.merge Row.merge (b.member? m) (rows.find? (·.key == m)) := by
  induction rows generalizing b with
  | nil => simp
  | cons r rows ih =>
    obtain ⟨hr, hrows⟩ := List.nodup_cons.1 h
    rw [List.foldl_cons, ih _ hrows, member?_mergeRow]
    by_cases hm : r.key = m
    · subst hm
      have hn : rows.find? (·.key == r.key) = none := by
        refine List.find?_eq_none.2 fun o ho e => hr ?_
        rw [← beq_iff_eq.1 e]
        exact List.mem_map_of_mem ho
      simp [hn]
    · simp [hm]

/-! ## Rows that carry the name -/

theorem addPrefixedRow_of_member {b : Block} {r : Row} (h : Key.isMember b.name r.key = true) :
    b.addPrefixedRow r = b.addRow (RowSet.asMember b.name r) := by
  obtain ⟨m, hm⟩ := Option.isSome_iff_exists.1 h
  unfold addPrefixedRow RowSet.asMember
  rw [hm]
  rfl

theorem addPrefixedRows_of_members {b : Block} {rows : List Row}
    (h : ∀ r ∈ rows, Key.isMember b.name r.key = true) :
    b.addPrefixedRows rows = b.addRows (rows.map (RowSet.asMember b.name)) := by
  unfold addPrefixedRows addRows
  induction rows generalizing b with
  | nil => rfl
  | cons r rows ih =>
    rw [List.foldl_cons, List.map_cons, List.foldl_cons,
      addPrefixedRow_of_member (h r List.mem_cons_self)]
    have name := (b.addRow_frame (RowSet.asMember b.name r)).1
    have hrows : ∀ r' ∈ rows,
        Key.isMember (b.addRow (RowSet.asMember b.name r)).name r'.key = true := by
      intro r' hr'
      rw [name]
      exact h r' (List.mem_cons_of_mem r hr')
    rw [ih hrows, name]

/-- Rows of new and distinct keys are all appended. -/
theorem addRows_of_nodup {b : Block} {rows : List Row} (h : ((b.rows ++ rows).map Row.key).Nodup) :
    b.addRows rows = { b with rows := b.rows ++ rows } := by
  unfold addRows
  induction rows generalizing b with
  | nil => simp
  | cons r rows ih =>
    have hn : b.member? r.key = none := by
      refine List.find?_eq_none.2 fun o ho e => ?_
      have apart := (List.nodup_append.1 (List.map_append ▸ h)).2.2
      exact apart _ (List.mem_map_of_mem ho) r.key (by simp) (beq_iff_eq.1 e)
    have hadd : b.addRow r = { b with rows := b.rows ++ [r] } := by
      unfold addRow
      rw [hn]
    rw [List.foldl_cons, hadd, ih (by simpa using h)]
    simp

/-! ## Whole blocks -/

theorem member?_add (other : Block) :
    (b.add other).member? m = (b.member? m).or (other.member? m) := by
  unfold add
  rw [member?_of_rows_eq m (backfillComment_frame _ _).2.1, member?_addRows]
  rfl

theorem member?_merge {other : Block} (h : other.Distinct) :
    (b.merge other).member? m = Option.merge Row.merge (b.member? m) (other.member? m) := by
  unfold merge
  rw [member?_of_rows_eq m (backfillComment_frame _ _).2.1, member?_mergeRows b m h]
  rfl

end Block

end EnvFile
