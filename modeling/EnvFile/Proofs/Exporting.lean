import EnvFile.Environment
import Mathlib.Data.Finset.Card
import Mathlib.Data.List.Induction

/-! # What an export does

    A document may give one variable several times, and an export goes through
    its entries in order.  What an entry meets is what the entries before it
    left, so under the two flags different ones count: the last entry of a
    variable if entries replace what is set, and the first if they do not, as
    the entries behind it find the variable set.

    * `exportEntry_eq`, `get?_exportEntry`: one entry.
    * `get?_exportEntries_replace`, `get?_exportEntries_keep`,
      `loaded_exportEntries_keep`: all entries, by induction on how many have
      been gone through.
    * `exported_exportDocument`: a document, by its entries and by its rows. -/

namespace EnvFile

/-! ## Rows and entries -/

namespace Document

/-- The entries of a part of the rows of a document. -/
def entriesOf (rows : List (Text × Row)) : List (Text × Text) :=
  (rows.filter fun (_, r) => !r.disabled).map fun (key, r) => (key, r.value)

/-- A live row has its entry between those of the rows above and below it. -/
theorem entries_of_live {d : Document} {above below : List (Text × Row)} {k : Text} {r : Row}
    (rows : d.rows = above ++ (k, r) :: below) (live : r.disabled = false) :
    d.entries = entriesOf above ++ (k, r.value) :: entriesOf below := by
  unfold entries entriesOf
  rw [rows, List.filter_append, List.filter_cons_of_pos (by simpa using live), List.map_append,
    List.map_cons]

/-- Rows that are disabled give their variable no entry. -/
theorem not_mem_keys_entriesOf {rows : List (Text × Row)} {k : Text}
    (h : ∀ r, (k, r) ∈ rows → r.disabled = true) : k ∉ (entriesOf rows).map Prod.fst := by
  intro given
  obtain ⟨e, he, rfl⟩ := List.mem_map.1 given
  obtain ⟨⟨key, r⟩, hr, rfl⟩ := List.mem_map.1 he
  obtain ⟨row, live⟩ := List.mem_filter.1 hr
  simp [h r row] at live

end Document

namespace Environment

variable {env : Environment} {replace : Bool} {entries : List (Text × Text)} {e : Text × Text}

/-! ## One entry -/

theorem contains_eq_false_iff {k : Text} : env.contains k = false ↔ env.get? k = none := by
  simp [Catalog.contains, Dictionary.get?]

/-- Is an entry of this variable set?  Otherwise it is skipped. -/
def Sets (env : Environment) (replace : Bool) (k : Text) : Prop :=
  replace = true ∨ env.get? k = none

instance (env : Environment) (replace : Bool) (k : Text) : Decidable (env.Sets replace k) :=
  inferInstanceAs (Decidable (_ ∨ _))

theorem exportEntry_eq (state : Environment × ExportReport) :
    exportEntry replace state e =
      if state.1.Sets replace e.1 then
        (state.1.set e.1 e.2, { state.2 with loaded := state.2.loaded + 1 })
      else (state.1, { state.2 with skipped := state.2.skipped + 1 }) := by
  unfold exportEntry Sets
  cases replace with
  | true => simp
  | false =>
    cases h : state.1.contains e.1 with
    | true =>
      have taken : state.1.get? e.1 ≠ none := by
        intro none
        simp [contains_eq_false_iff.2 none] at h
      simp [h, taken]
    | false => simp [h, contains_eq_false_iff.1 h]

/-- An entry gives its variable a value, and no other. -/
theorem get?_exportEntry (state : Environment × ExportReport) (k : Text) :
    (exportEntry replace state e).1.get? k =
      if e.1 = k ∧ state.1.Sets replace k then some e.2 else state.1.get? k := by
  rw [exportEntry_eq]
  by_cases key : e.1 = k
  · subst key
    by_cases sets : state.1.Sets replace e.1 <;> simp [sets]
  · by_cases sets : state.1.Sets replace e.1 <;> simp [sets, key, Dictionary.get?_set]

/-! ## All entries -/

theorem exportEntries_concat (env : Environment) (replace : Bool)
    (entries : List (Text × Text)) (e : Text × Text) :
    env.exportEntries replace (entries ++ [e]) =
      exportEntry replace (env.exportEntries replace entries) e := by
  unfold exportEntries
  rw [List.foldl_append]
  rfl

/-- If entries replace what is set, the last one of a variable counts. -/
theorem get?_exportEntries_replace (env : Environment) (entries : List (Text × Text)) (k : Text) :
    (env.exportEntries true entries).1.get? k = (entries.reverse.lookup k).or (env.get? k) := by
  induction entries using List.reverseRecOn with
  | nil => rfl
  | append_singleton entries e ih =>
    rw [exportEntries_concat, get?_exportEntry, ih, List.reverse_append, List.reverse_singleton,
      List.singleton_append, List.lookup_cons]
    -- what stands last in order is what a look-up from the end meets first
    by_cases key : e.1 = k
    · simp [key, Sets]
    · have other : (k == e.1) = false := by simpa using Ne.symm key
      simp [key, other]

/-- If they do not, what was set before counts, and else the first one. -/
theorem get?_exportEntries_keep (env : Environment) (entries : List (Text × Text)) (k : Text) :
    (env.exportEntries false entries).1.get? k = (env.get? k).or (entries.lookup k) := by
  induction entries using List.reverseRecOn with
  | nil => simp [exportEntries]
  | append_singleton entries e ih =>
    rw [exportEntries_concat, get?_exportEntry, List.lookup_append, ← Option.or_assoc, ← ih]
    -- the last entry is set only if its variable has no value by then
    by_cases key : e.1 = k
    · have one : [e].lookup k = some e.2 := by
        subst key
        exact List.lookup_cons_self
      rw [one]
      cases h : (env.exportEntries false entries).1.get? k <;> simp [key, Sets, h]
    · have none : [e].lookup k = none := by simp [List.lookup_eq_none_iff, Ne.symm key]
      simp [key, none]

theorem skipped_exportEntries_replace (env : Environment) (entries : List (Text × Text)) :
    (env.exportEntries true entries).2.skipped = 0 := by
  induction entries using List.reverseRecOn with
  | nil => rfl
  | append_singleton entries e ih =>
    rw [exportEntries_concat, exportEntry_eq, if_pos (.inl rfl)]
    exact ih

/-- Entries that do not replace what is set are set once for each variable that
    was not. -/
theorem loaded_exportEntries_keep (env : Environment) (entries : List (Text × Text)) :
    (env.exportEntries false entries).2.loaded =
      ((entries.map Prod.fst).toFinset.filter fun k => env.get? k = none).card := by
  induction entries using List.reverseRecOn with
  | nil => rfl
  | append_singleton entries e ih =>
    -- an entry is set if its variable was not, and no entry before gave it
    have sets : (env.exportEntries false entries).1.Sets false e.1 ↔
        env.get? e.1 = none ∧ e.1 ∉ (entries.map Prod.fst).toFinset := by
      simp only [Sets, Bool.false_eq_true, false_or, get?_exportEntries_keep, Option.or_eq_none_iff,
        List.lookup_eq_none_iff, List.mem_toFinset, List.mem_map, not_exists, not_and, bne_iff_ne]
      exact and_congr_right fun _ => ⟨fun h p hp => Ne.symm (h p hp), fun h p hp => Ne.symm (h p hp)⟩
    have keys : ((entries ++ [e]).map Prod.fst).toFinset =
        insert e.1 (entries.map Prod.fst).toFinset := by
      ext k
      simp
    rw [exportEntries_concat, exportEntry_eq, keys, Finset.filter_insert]
    by_cases unset : env.get? e.1 = none
    · rw [if_pos unset, Finset.card_insert_eq_ite]
      by_cases given : e.1 ∈ (entries.map Prod.fst).toFinset
      · rw [if_neg (by simp [sets, given]), if_pos (by simp [given, unset])]
        exact ih
      · rw [if_pos (sets.2 ⟨unset, given⟩), if_neg (by simp [given])]
        exact congrArg (· + 1) ih
    · rw [if_neg unset, if_neg (by simp [sets, unset])]
      exact ih

/-! ## A second time -/

/-- An export brings nothing that a second one of the same entries changes. -/
theorem exportEntries_again (env : Environment) (replace : Bool)
    (entries : List (Text × Text)) :
    ((env.exportEntries replace entries).1.exportEntries replace entries).1 =
      (env.exportEntries replace entries).1 := by
  apply Dictionary.ext_get?
  intro k
  cases replace with
  | true =>
    rw [get?_exportEntries_replace, get?_exportEntries_replace, ← Option.or_assoc,
      Option.or_self]
  | false => rw [get?_exportEntries_keep, get?_exportEntries_keep, Option.or_assoc, Option.or_self]

/-- All its variables are set by then. -/
theorem loaded_again (env : Environment) (entries : List (Text × Text)) :
    ((env.exportEntries false entries).1.exportEntries false entries).2.loaded = 0 := by
  rw [loaded_exportEntries_keep, Finset.card_eq_zero, Finset.filter_eq_empty_iff]
  intro k given unset
  rw [get?_exportEntries_keep, Option.or_eq_none_iff, List.lookup_eq_none_iff] at unset
  obtain ⟨p, hp, rfl⟩ := List.mem_map.1 (List.mem_toFinset.1 given)
  simpa using unset.2 p hp

/-! ## A document -/

/-- What exporting a document comes to. -/
structure Exported (d : Document) (env : Environment) (replace : Bool)
    (after : Environment × ExportReport) : Prop where
  /-- A variable that has no live row stays as it was. -/
  others : ∀ k, (∀ r, (k, r) ∈ d.rows → r.disabled = true) → after.1.get? k = env.get? k
  /-- Where entries replace what is set, a variable has the value of its last
      entry. -/
  last : replace = true → ∀ above k v below, d.entries = above ++ (k, v) :: below →
    k ∉ below.map Prod.fst → after.1.get? k = some v
  /-- Where they do not, it has the value that it had, or else that of its first
      entry. -/
  first : replace = false → ∀ above k v below, d.entries = above ++ (k, v) :: below →
    k ∉ above.map Prod.fst → after.1.get? k = some ((env.get? k).getD v)
  /-- The last entry is that of the last live row. -/
  last_row : replace = true → ∀ above k r below, d.rows = above ++ (k, r) :: below →
    r.disabled = false → (∀ s, (k, s) ∈ below → s.disabled = true) →
    after.1.get? k = some r.value
  /-- The first entry is that of the first live row. -/
  first_row : replace = false → ∀ above k r below, d.rows = above ++ (k, r) :: below →
    r.disabled = false → (∀ s, (k, s) ∈ above → s.disabled = true) →
    after.1.get? k = some ((env.get? k).getD r.value)
  /-- Every entry is set or skipped. -/
  all : after.2.loaded + after.2.skipped = d.entries.length
  /-- Entries that replace what is set are all set. -/
  none_skipped : replace = true → after.2.skipped = 0
  /-- Of others, one is set for each variable that had no value. -/
  loaded : replace = false → after.2.loaded =
    ((d.entries.map Prod.fst).toFinset.filter fun k => env.get? k = none).card
  /-- Exporting the document again changes nothing. -/
  again : (after.1.exportDocument replace d).1 = after.1
  /-- Nor is anything set then unless it replaces what is set. -/
  none_loaded : replace = false → (after.1.exportDocument replace d).2.loaded = 0

theorem lookup_of_not_mem {entries : List (Text × Text)} {k : Text}
    (h : k ∉ entries.map Prod.fst) : entries.lookup k = none := by
  refine List.lookup_eq_none_iff.2 fun p hp => ?_
  rw [bne_iff_ne]
  rintro rfl
  exact h (List.mem_map_of_mem hp)

theorem lookup_of_first {above below : List (Text × Text)} {k v : Text}
    (h : k ∉ above.map Prod.fst) : (above ++ (k, v) :: below).lookup k = some v := by
  refine List.lookup_eq_some_iff.2 ⟨above, below, rfl, fun p hp => ?_⟩
  rw [bne_iff_ne]
  rintro rfl
  exact h (List.mem_map_of_mem hp)

/-- Where entries replace what is set, the last one of a variable counts. -/
theorem get?_exportDocument_last (env : Environment) {d : Document} {k v : Text}
    {above below : List (Text × Text)} (entries : d.entries = above ++ (k, v) :: below)
    (behind : k ∉ below.map Prod.fst) : (env.exportDocument true d).1.get? k = some v := by
  unfold exportDocument
  rw [get?_exportEntries_replace, entries, List.reverse_append, List.reverse_cons,
    List.append_assoc, List.singleton_append, lookup_of_first (by simpa using behind),
    Option.some_or]

/-- Where they do not, the first one counts unless the variable had a value. -/
theorem get?_exportDocument_first (env : Environment) {d : Document} {k v : Text}
    {above below : List (Text × Text)} (entries : d.entries = above ++ (k, v) :: below)
    (front : k ∉ above.map Prod.fst) :
    (env.exportDocument false d).1.get? k = some ((env.get? k).getD v) := by
  unfold exportDocument
  rw [get?_exportEntries_keep, entries, lookup_of_first front]
  cases env.get? k <;> rfl

/-- **What an export of a document does,** under either flag and to any
    environment, also where the document gives a variable more than once. -/
theorem exported_exportDocument (d : Document) (env : Environment) (replace : Bool) :
    Exported d env replace (env.exportDocument replace d) where
  others k disabled := by
    have absent : k ∉ d.entries.map Prod.fst := Document.not_mem_keys_entriesOf disabled
    unfold exportDocument
    cases replace with
    | true =>
      rw [get?_exportEntries_replace, lookup_of_not_mem (by simpa using absent), Option.none_or]
    | false => rw [get?_exportEntries_keep, lookup_of_not_mem absent, Option.or_none]
  last flag above k v below entries behind := by
    subst flag
    exact get?_exportDocument_last env entries behind
  first flag above k v below entries front := by
    subst flag
    exact get?_exportDocument_first env entries front
  last_row flag above k r below rows live behind := by
    subst flag
    exact get?_exportDocument_last env (Document.entries_of_live rows live)
      (Document.not_mem_keys_entriesOf behind)
  first_row flag above k r below rows live front := by
    subst flag
    exact get?_exportDocument_first env (Document.entries_of_live rows live)
      (Document.not_mem_keys_entriesOf front)
  all := (loaded_add_skipped replace d.entries (env, {})).trans (Nat.zero_add _)
  none_skipped flag := by
    subst flag
    exact skipped_exportEntries_replace env d.entries
  loaded flag := by
    subst flag
    exact loaded_exportEntries_keep env d.entries
  again := exportEntries_again env replace d.entries
  none_loaded flag := by
    subst flag
    exact loaded_again env d.entries

/-- A loose row and a member of a block under one full key. -/
theorem exported_exportDocument_repeated :
    let loose := Row.ofPair "a_b".toList "1".toList
    let member := Row.ofPair "b".toList "2".toList
    let d : Document := { items := [.row loose, .block ((Block.ofName "a".toList).addRow member)] }
    (exportDocument .empty true d).1.get? "A_B".toList = some "2".toList ∧
      (exportDocument .empty false d).1.get? "A_B".toList = some "1".toList ∧
      (exportDocument .empty true d).2 = ⟨2, 0⟩ ∧ (exportDocument .empty false d).2 = ⟨1, 1⟩ := by
  intro loose member d
  have replaced := exported_exportDocument d .empty true
  have kept := exported_exportDocument d .empty false
  have rows : d.rows = [("A_B".toList, loose), ("A_B".toList, member)] := by decide
  refine ⟨replaced.last_row rfl [_] _ member [] rows rfl (by simp),
    kept.first_row rfl [] _ loose [_] rows rfl (by simp), ?_, ?_⟩
  · have all := replaced.all
    rw [replaced.none_skipped rfl] at all
    exact congrArg₂ ExportReport.mk all (replaced.none_skipped rfl)
  · have one : (exportDocument .empty false d).2.loaded = 1 := kept.loaded rfl
    have all := kept.all
    rw [one] at all
    exact congrArg₂ ExportReport.mk one (Nat.add_left_cancel all)

end Environment

end EnvFile
