import EnvFile.Proofs.Lists
import EnvFile.Reader

/-! # Collisions in one file

    A file may define a variable more than once, and some of the definitions
    may be disabled.  This module says what becomes of them, whatever comes
    between them.

    The *occurrences* of a variable are the rows that the reader takes in for
    it, in order.  `settle` gives the row that they come to:

    * if one of them is live, the first live one counts, and the values of all
      others become its shadows;
    * if none is live, the first one counts.

    Comments decide about comments only (`settle_unannotated`).

    `Reflects` relates a reader to the rows that it has taken in.  One row
    more keeps the relation (`Reflects.insert`), so it holds after any number
    of rows (`Reflects.insertAll`). -/

namespace EnvFile

/-! ## First texts and other values -/

/-- The first text that is not empty; the empty text if there is none. -/
def Text.firstNonempty (ts : List Text) : Text :=
  (ts.find? (!·.isEmpty)).getD []

/-- The distinct values of a list, in order, other than `own`. -/
def Value.others (own : Text) (values : List Text) : List Text :=
  values.eraseDups.filter (· != own)

theorem Text.firstNonempty_singleton (t : Text) : Text.firstNonempty [t] = t := by
  cases t <;> rfl

theorem Text.firstNonempty_pair (t u : Text) :
    Text.firstNonempty [t, u] = if t.isEmpty then u else t := by
  cases t <;> cases u <;> rfl

theorem Text.firstNonempty_concat (ts : List Text) (t : Text) :
    firstNonempty (ts ++ [t]) = firstNonempty [firstNonempty ts, t] := by
  rw [firstNonempty_pair]
  unfold firstNonempty
  rw [List.find?_append]
  cases h : ts.find? (!·.isEmpty) with
  | none => cases t <;> rfl
  | some u =>
    have hu : u.isEmpty = false := by simpa using List.find?_some h
    simp [hu]

namespace Value

theorem mem_others {own v : Text} {vs : List Text} : v ∈ others own vs ↔ v ∈ vs ∧ v ≠ own := by
  simp [others]

theorem others_concat (own : Text) (vs : List Text) (v : Text) :
    others own (vs ++ [v]) =
      if v = own ∨ v ∈ vs then others own vs else others own vs ++ [v] := by
  unfold others
  rw [eraseDups_concat]
  by_cases hm : v ∈ vs
  · simp [hm]
  · by_cases hv : v = own
    · subst hv
      simp [hm]
    · simp [hm, hv]

theorem others_concat_own (own : Text) (vs : List Text) :
    others own (vs ++ [own]) = others own vs := by
  rw [others_concat, if_pos (.inl rfl)]

/-- Repeated values count once, also when they were counted before. -/
theorem others_append_eraseDups (own : Text) (vs ws : List Text) :
    others own (vs ++ ws.eraseDups) = others own (vs ++ ws) := by
  induction ws using List.reverseRecOn with
  | nil => rfl
  | append_singleton ws w ih =>
    rw [eraseDups_concat, ← List.append_assoc, others_concat]
    by_cases h : w ∈ ws
    · simp [h, ih]
    · rw [if_neg h, ← List.append_assoc, others_concat, ih]
      simp

end Value

/-! ## Changing a row -/

/-- The row without its comment. -/
def Row.unannotated (r : Row) : Row :=
  { r with comment := [] }

namespace Row

theorem Sound.others_eq {r : Row} (h : r.Sound) : Value.others r.value r.shadows = r.shadows := by
  unfold Value.others
  rw [eraseDups_of_nodup h.nodup]
  apply List.filter_eq_self.2
  intro v hv
  have hne : v ≠ r.value := fun e => h.value_not_mem (e ▸ hv)
  simpa using hne

theorem addShadow_of_others {r : Row} (live : r.disabled = false) {vs : List Text}
    (h : r.shadows = Value.others r.value vs) (v : Text) :
    r.addShadow v = { r with shadows := Value.others r.value (vs ++ [v]) } := by
  have hs : (r.disabled || v == r.value || r.hasShadow v) = true ↔ v = r.value ∨ v ∈ vs := by
    unfold hasShadow
    by_cases hv : v = r.value
    · simp [hv]
    · simp [hv, live, h, Value.mem_others]
  unfold addShadow
  rw [Value.others_concat, ← h]
  by_cases hv : v = r.value ∨ v ∈ vs
  · rw [if_pos (hs.2 hv), if_pos hv]
  · rw [if_neg fun hc => hv (hs.1 hc), if_neg hv]

theorem addShadows_of_others {r : Row} (live : r.disabled = false) {vs : List Text}
    (h : r.shadows = Value.others r.value vs) (ws : List Text) :
    r.addShadows ws = { r with shadows := Value.others r.value (vs ++ ws) } := by
  unfold addShadows
  induction ws generalizing r vs with
  | nil => simp [← h]
  | cons w ws ih =>
    rw [List.foldl_cons, addShadow_of_others live h]
    have := @ih { r with shadows := Value.others r.value (vs ++ [w]) } live _ rfl
    simpa using this

theorem backfillComment_eq (r : Row) (c : Text) :
    r.backfillComment c = { r with comment := .firstNonempty [r.comment, c] } := by
  unfold backfillComment
  rw [Text.firstNonempty_pair]
  split <;> rfl

theorem comment_backfillComment (r : Row) (c : Text) :
    (r.backfillComment c).comment = r.comment ∨ (r.backfillComment c).comment = c := by
  unfold backfillComment
  split
  · exact .inr rfl
  · exact .inl rfl

/-- A live row gathers values and then fills its comment. -/
theorem gather_of_fresh {r : Row} (live : r.disabled = false) (fresh : r.shadows = [])
    (vs : List Text) (c : Text) :
    (r.addShadows vs).backfillComment c =
      { r with shadows := Value.others r.value vs, comment := .firstNonempty [r.comment, c] } := by
  have hs : r.shadows = Value.others r.value [] := fresh
  rw [addShadows_of_others live hs, backfillComment_eq]
  rfl

end Row

/-! ## What occurrences come to -/

/-- The row that the occurrences of one variable come to. -/
def settle (os : List Row) : Option Row :=
  match os.dropWhile (·.disabled) with
  | first :: later =>
    some
      { key := first.key, value := first.value, disabled := false,
        comment := .firstNonempty (first.comment ::
          ((os.takeWhile (·.disabled)).head?.map Row.comment).toList ++
          (later.filter (!·.disabled)).map Row.comment),
        shadows := Value.others first.value (os.map Row.value) }
  | [] =>
    os.head?.map fun first =>
      { key := first.key, value := first.value, comment := first.comment, disabled := true }

/-- The occurrences of a variable among rows. -/
def occurrences (k : Text) (rows : List Row) : List Row :=
  rows.filter (·.key == k)

theorem takeWhile_dropWhile_append {pre : List Row} (h : ∀ r ∈ pre, r.disabled = true)
    (os : List Row) :
    (pre ++ os).takeWhile (·.disabled) = pre ++ os.takeWhile (·.disabled) ∧
      (pre ++ os).dropWhile (·.disabled) = os.dropWhile (·.disabled) :=
  ⟨List.takeWhile_append_of_pos h, List.dropWhile_append_of_pos h⟩

@[simp] theorem settle_nil : settle [] = none := rfl

theorem settle_of_live {pre later : List Row} {first : Row} (h : ∀ r ∈ pre, r.disabled = true)
    (live : first.disabled = false) :
    settle (pre ++ first :: later) =
      some
        { key := first.key, value := first.value, disabled := false,
          comment := .firstNonempty (first.comment :: (pre.head?.map Row.comment).toList ++
            (later.filter (!·.disabled)).map Row.comment),
          shadows := Value.others first.value ((pre ++ first :: later).map Row.value) } := by
  have ⟨ht, hd⟩ := takeWhile_dropWhile_append h (first :: later)
  unfold settle
  simp [ht, hd, live]

theorem settle_of_disabled {first : Row} {later : List Row}
    (h : ∀ r ∈ first :: later, r.disabled = true) :
    settle (first :: later) =
      some { key := first.key, value := first.value, comment := first.comment, disabled := true } := by
  have hd : (first :: later).dropWhile (·.disabled) = [] := List.dropWhile_eq_nil_iff.2 h
  unfold settle
  rw [hd]
  rfl

theorem settle_singleton {r : Row} (fresh : r.shadows = []) : settle [r] = some r := by
  obtain ⟨key, value, comment, disabled, shadows⟩ := r
  subst fresh
  cases disabled with
  | false => simp [settle, Value.others, Text.firstNonempty_singleton]
  | true => rfl

/-- Comments decide about comments only. -/
theorem settle_unannotated (os : List Row) :
    (settle (os.map Row.unannotated)).map Row.unannotated = (settle os).map Row.unannotated := by
  have dropped : (os.map Row.unannotated).dropWhile (·.disabled) =
      (os.dropWhile (·.disabled)).map Row.unannotated := List.dropWhile_map
  have values : (os.map Row.unannotated).map Row.value = os.map Row.value := by
    rw [List.map_map]
    rfl
  unfold settle
  rw [dropped, values]
  cases os.dropWhile (·.disabled) with
  | nil => cases os <;> rfl
  | cons first later => rfl

/-- A variable has no occurrence, or only disabled ones, or a first live one. -/
theorem occurrences_trichotomy (os : List Row) :
    os = [] ∨
      (∃ first later, os = first :: later ∧ ∀ r ∈ first :: later, r.disabled = true) ∨
      ∃ pre first later, os = pre ++ first :: later ∧ (∀ r ∈ pre, r.disabled = true) ∧
        first.disabled = false := by
  induction os with
  | nil => exact .inl rfl
  | cons r os ih =>
    right
    cases hr : r.disabled with
    | false => exact .inr ⟨[], r, os, rfl, by simp, hr⟩
    | true =>
      rcases ih with rfl | ⟨first, later, rfl, h⟩ | ⟨pre, first, later, rfl, h, live⟩
      · exact .inl ⟨r, [], rfl, by simpa using hr⟩
      · exact .inl ⟨r, _, rfl, List.forall_mem_cons.2 ⟨hr, h⟩⟩
      · exact .inr ⟨r :: pre, first, later, rfl, List.forall_mem_cons.2 ⟨hr, h⟩, live⟩

namespace Reader

/-! ## Taking in rows -/

/-- Take in a row, live or disabled. -/
def insert (s : Reader) (r : Row) : Reader :=
  if r.disabled then s.insertDisabled r else s.insertLive r

/-- Take in rows in order. -/
def insertAll (s : Reader) (rows : List Row) : Reader :=
  rows.foldl insert s

/-! ### What one row does

    One equation for each of the five cases: the variable is new, or a live or
    disabled row meets a live or disabled one. -/

section Insert

variable {s : Reader} {r old : Row}

theorem insert_of_new (h : s.rows.find? r.key = none) : s.insert r = s.insertRow r := by
  unfold insert insertDisabled insertLive
  simp [h]

theorem insert_disabled_of_disabled (h : s.rows.find? r.key = some old)
    (hold : old.disabled = true) (hr : r.disabled = true) :
    s.insert r = s.noteHistory r.key r.value := by
  unfold insert insertDisabled
  simp [h, hold, hr]

theorem insert_disabled_of_live (h : s.rows.find? r.key = some old)
    (hold : old.disabled = false) (hr : r.disabled = true) :
    s.insert r = s.insertRow (old.addShadow r.value) := by
  unfold insert insertDisabled
  simp [h, hold, hr]

theorem insert_live_of_disabled (h : s.rows.find? r.key = some old)
    (hold : old.disabled = true) (hr : r.disabled = false) :
    s.insert r = s.insertRow (s.revive old r) := by
  unfold insert insertLive
  simp [h, hold, hr]

theorem insert_live_of_live (h : s.rows.find? r.key = some old)
    (hold : old.disabled = false) (hr : r.disabled = false) :
    s.insert r = s.insertRow ((old.addShadow r.value).backfillComment r.comment) := by
  unfold insert insertLive
  simp [h, hold, hr]

end Insert

theorem find?_insertRow_self (s : Reader) {r : Row} {k : Text} (h : r.key = k) :
    (s.insertRow r).rows.find? k = some r :=
  h ▸ Catalog.find?_insert_self s.rows.rows r

theorem find?_insertRow_ne (s : Reader) {r : Row} {k : Text} (h : r.key ≠ k) :
    (s.insertRow r).rows.find? k = s.rows.find? k :=
  Catalog.find?_insert_ne s.rows.rows h

@[simp] theorem rows_noteHistory (s : Reader) (key value : Text) :
    (s.noteHistory key value).rows = s.rows := by
  unfold noteHistory
  split <;> rfl

theorem historyOf_noteHistory_self (s : Reader) (key value : Text) :
    (s.noteHistory key value).historyOf key =
      if value ∈ s.historyOf key then s.historyOf key else s.historyOf key ++ [value] := by
  by_cases h : value ∈ s.historyOf key
  · simp [noteHistory, h]
  · have : (s.historyOf key).contains value = false := by simpa using h
    unfold noteHistory
    rw [this, if_neg h]
    simp [historyOf]

theorem historyOf_noteHistory_ne (s : Reader) {key k : Text} (value : Text) (h : key ≠ k) :
    (s.noteHistory key value).historyOf k = s.historyOf k := by
  unfold noteHistory
  split
  · rfl
  · simp [historyOf, Dictionary.get?_set_ne _ _ h]

theorem key_of_find? {s : Reader} {k : Text} {r : Row} (h : s.rows.find? k = some r) :
    r.key = k :=
  Catalog.key_eq_of_find? h

/-- A row joins the history of its variable, or else one row of that variable
    is put in place, with its comment or with the one that was there. -/
theorem insert_cases (s : Reader) (r : Row) :
    s.insert r = s.noteHistory r.key r.value ∨
      ∃ m, s.insert r = s.insertRow m ∧ m.key = r.key ∧
        (m.comment = r.comment ∨
          ∃ old, s.rows.find? r.key = some old ∧ m.comment = old.comment) := by
  cases hf : s.rows.find? r.key with
  | none => exact .inr ⟨r, insert_of_new hf, rfl, .inl rfl⟩
  | some old =>
    have key : old.key = r.key := key_of_find? hf
    cases ho : old.disabled <;> cases hr : r.disabled
    · refine .inr ⟨_, insert_live_of_live hf ho hr, by simpa using key, ?_⟩
      rcases (old.addShadow r.value).comment_backfillComment r.comment with h | h
      · exact .inr ⟨old, rfl, by simpa using h⟩
      · exact .inl h
    · exact .inr ⟨_, insert_disabled_of_live hf ho hr, by simpa using key,
        .inr ⟨old, rfl, by simp⟩⟩
    · refine .inr ⟨_, insert_live_of_disabled hf ho hr, by simp [revive], ?_⟩
      rcases ((r.addShadow old.value).addShadows
        (s.historyOf r.key)).comment_backfillComment old.comment with h | h
      · exact .inl (h.trans (by simp))
      · exact .inr ⟨old, rfl, h⟩
    · exact .inl (insert_disabled_of_disabled hf ho hr)

/-- A row changes nothing about other variables. -/
theorem insert_frame (s : Reader) {r : Row} {k : Text} (h : r.key ≠ k) :
    (s.insert r).rows.find? k = s.rows.find? k ∧ (s.insert r).historyOf k = s.historyOf k := by
  rcases s.insert_cases r with hi | ⟨m, hi, key, -⟩
  · rw [hi, rows_noteHistory]
    exact ⟨rfl, historyOf_noteHistory_ne s _ h⟩
  · rw [hi]
    have hm : m.key ≠ k := by rw [key]; exact h
    exact ⟨find?_insertRow_ne s hm, rfl⟩

/-! ## What a reader reflects -/

/-- The reader holds what the rows that it has taken in come to, variable by
    variable.  While a variable has only disabled occurrences, its history
    holds the values of all but the first. -/
structure Reflects (s : Reader) (rows : List Row) : Prop where
  found : ∀ k, s.rows.find? k = settle (occurrences k rows)
  history : ∀ k, (∀ r ∈ occurrences k rows, r.disabled = true) →
    s.historyOf k = ((occurrences k rows).tail.map Row.value).eraseDups

theorem reflects_empty : Reflects {} [] :=
  ⟨fun _ => rfl, fun _ _ => rfl⟩

theorem occurrences_concat (k : Text) (rows : List Row) (r : Row) :
    occurrences k (rows ++ [r]) = occurrences k rows ++ if r.key = k then [r] else [] := by
  unfold occurrences
  by_cases h : r.key = k <;> simp [h]

theorem occurrences_unannotated (k : Text) (rows : List Row) :
    occurrences k (rows.map Row.unannotated) = (occurrences k rows).map Row.unannotated :=
  List.filter_map

theorem key_of_mem_occurrences {k : Text} {rows : List Row} {r : Row}
    (h : r ∈ occurrences k rows) : r.key = k := by
  simpa using (List.mem_filter.1 h).2

/-- The variable's row after one more occurrence of it. -/
theorem find?_insert_of_settle {s : Reader} {r : Row} (fresh : r.shadows = [])
    {os : List Row} (found : s.rows.find? r.key = settle os)
    (history : (∀ o ∈ os, o.disabled = true) →
      s.historyOf r.key = (os.tail.map Row.value).eraseDups) :
    (s.insert r).rows.find? r.key = settle (os ++ [r]) := by
  rcases occurrences_trichotomy os with rfl | ⟨first, later, rfl, dis⟩ |
    ⟨pre, first, later, rfl, dis, live⟩
  · rw [insert_of_new found, find?_insertRow_self s rfl, List.nil_append, settle_singleton fresh]
  · have hs := settle_of_disabled dis
    rw [hs] at found
    cases hr : r.disabled with
    | true =>
      have dis' : ∀ o ∈ first :: (later ++ [r]), o.disabled = true := by
        simpa [or_imp, forall_and, hr] using dis
      rw [insert_disabled_of_disabled found rfl hr, rows_noteHistory, found]
      exact (settle_of_disabled dis').symm
    | false =>
      -- the live row gathers the first value, then the history
      have hv : Value.others r.value (first.value :: (later.map Row.value).eraseDups) =
          Value.others r.value ((first :: later ++ [r]).map Row.value) :=
        calc Value.others r.value (first.value :: (later.map Row.value).eraseDups)
          _ = Value.others r.value (first.value :: later.map Row.value) :=
            Value.others_append_eraseDups r.value [first.value] _
          _ = Value.others r.value ((first.value :: later.map Row.value) ++ [r.value]) :=
            (Value.others_concat_own r.value _).symm
          _ = Value.others r.value ((first :: later ++ [r]).map Row.value) := by simp
      have hg : s.revive { first with disabled := true, shadows := [] } r =
          { r with shadows := Value.others r.value ((first :: later ++ [r]).map Row.value),
                   comment := .firstNonempty [r.comment, first.comment] } := by
        unfold revive
        rw [history dis, ← hv]
        exact Row.gather_of_fresh hr fresh (first.value :: _) _
      rw [insert_live_of_disabled found rfl hr, hg, find?_insertRow_self s rfl,
        settle_of_live dis hr, hr]
      rfl
  · -- the first live row stays; whatever comes later is a shadow
    rw [settle_of_live dis live] at found
    have key := key_of_find? found
    have hs : settle (pre ++ first :: later ++ [r]) = settle (pre ++ first :: (later ++ [r])) := by
      rw [List.append_assoc, List.cons_append]
    cases hr : r.disabled with
    | true =>
      rw [insert_disabled_of_live found rfl hr, find?_insertRow_self s (by simpa using key), hs,
        settle_of_live dis live, Row.addShadow_of_others rfl rfl]
      simp [hr]
    | false =>
      rw [insert_live_of_live found rfl hr, find?_insertRow_self s (by simpa using key), hs,
        settle_of_live dis live, Row.addShadow_of_others rfl rfl, Row.backfillComment_eq,
        ← Text.firstNonempty_concat]
      simp [hr]

theorem historyOf_insert_of_disabled {s : Reader} {r : Row} {os : List Row}
    (found : s.rows.find? r.key = settle os)
    (history : (∀ o ∈ os, o.disabled = true) →
      s.historyOf r.key = (os.tail.map Row.value).eraseDups)
    (dis : ∀ o ∈ os ++ [r], o.disabled = true) :
    (s.insert r).historyOf r.key = ((os ++ [r]).tail.map Row.value).eraseDups := by
  have hr : r.disabled = true := dis r (by simp)
  have hos : ∀ o ∈ os, o.disabled = true := fun o ho => dis o (by simp [ho])
  have hist := history hos
  cases os with
  | nil =>
    rw [insert_of_new found]
    exact hist
  | cons first later =>
    rw [settle_of_disabled hos] at found
    rw [insert_disabled_of_disabled found rfl hr, historyOf_noteHistory_self, hist]
    simp [eraseDups_concat]

/-- One row more. -/
theorem Reflects.insert {s : Reader} {rows : List Row} (h : s.Reflects rows) {r : Row}
    (fresh : r.shadows = []) : (s.insert r).Reflects (rows ++ [r]) where
  found := by
    intro k
    rw [occurrences_concat]
    by_cases hk : r.key = k
    · subst hk
      rw [if_pos rfl]
      exact find?_insert_of_settle fresh (h.found r.key) (h.history r.key)
    · rw [if_neg hk, List.append_nil, (insert_frame s hk).1, h.found]
  history := by
    intro k
    rw [occurrences_concat]
    by_cases hk : r.key = k
    · subst hk
      rw [if_pos rfl]
      exact historyOf_insert_of_disabled (h.found r.key) (h.history r.key)
    · rw [if_neg hk, List.append_nil, (insert_frame s hk).2]
      exact h.history k

/-- Any number of rows more. -/
theorem Reflects.insertAll {s : Reader} {rows : List Row} (h : s.Reflects rows) {more : List Row}
    (fresh : ∀ r ∈ more, r.shadows = []) : (s.insertAll more).Reflects (rows ++ more) := by
  unfold Reader.insertAll
  induction more generalizing s rows with
  | nil => simpa using h
  | cons r more ih =>
    have hr := h.insert (fresh r List.mem_cons_self)
    have := ih hr fun o ho => fresh o (List.mem_cons_of_mem r ho)
    simpa using this

/-- A reader reflects its rows, whatever else it knows. -/
theorem Reflects.congr {s t : Reader} {rows : List Row} (h : s.Reflects rows)
    (hr : t.rows.rows = s.rows.rows) (hh : t.history = s.history) : t.Reflects rows where
  found k := by
    rw [← h.found k]
    exact congrArg (·.find? k) hr
  history k hk := by
    rw [← h.history k hk]
    unfold historyOf
    rw [hh]

theorem settle_isSome_iff {os : List Row} : (settle os).isSome = true ↔ os ≠ [] := by
  rcases occurrences_trichotomy os with rfl | ⟨first, later, rfl, dis⟩ |
    ⟨pre, first, later, rfl, dis, live⟩
  · simp
  · simp [settle_of_disabled dis]
  · simp [settle_of_live dis live]

theorem occurrences_ne_nil_iff {k : Text} {rows : List Row} :
    occurrences k rows ≠ [] ↔ k ∈ rows.map Row.key := by
  unfold occurrences
  simp [List.filter_eq_nil_iff]

/-! ## The law of collisions -/

/-- **Collisions in one file.**  After any rows, live and disabled in any
    order, a reader holds exactly the variables that occurred.

    A variable that occurred live has the value of its first live occurrence;
    the values of all occurrences, without repetition and without its own, are
    its shadows in order.  Its comment is the first non-empty one among those
    of the first live occurrence, of the first disabled one before that, and
    of the later live ones.

    A variable that never occurred live is disabled, with the value and the
    comment of its first occurrence and no shadows. -/
theorem find?_insertAll (rows : List Row) (fresh : ∀ r ∈ rows, r.shadows = []) :
    (∀ k, ((insertAll {} rows).rows.find? k).isSome = true ↔ k ∈ rows.map Row.key) ∧
    (∀ k pre first later, occurrences k rows = pre ++ first :: later →
      (∀ r ∈ pre, r.disabled = true) → first.disabled = false →
      (insertAll {} rows).rows.find? k =
        some
          { key := k, value := first.value, disabled := false,
            comment := .firstNonempty (first.comment :: (pre.head?.map Row.comment).toList ++
              (later.filter (!·.disabled)).map Row.comment),
            shadows :=
              ((occurrences k rows).map Row.value).eraseDups.filter (· != first.value) }) ∧
    (∀ k first later, occurrences k rows = first :: later →
      (∀ r ∈ first :: later, r.disabled = true) →
      (insertAll {} rows).rows.find? k =
        some
          { key := k, value := first.value, comment := first.comment, disabled := true,
            shadows := [] }) := by
  have h : (insertAll {} rows).Reflects rows := by
    simpa using reflects_empty.insertAll fresh
  refine ⟨fun k => ?_, fun k pre first later hos dis live => ?_, fun k first later hos dis => ?_⟩
  · rw [h.found, settle_isSome_iff, occurrences_ne_nil_iff]
  · have key : first.key = k := key_of_mem_occurrences (show first ∈ occurrences k rows by simp [hos])
    rw [h.found, hos, settle_of_live dis live, key]
    rfl
  · have key : first.key = k := key_of_mem_occurrences (show first ∈ occurrences k rows by simp [hos])
    rw [h.found, hos, settle_of_disabled dis, key]

/-- A variable `A` that is disabled first, live after that, and met again in
    both forms, between the occurrences of two others. -/
theorem find?_insertAll_interleaved :
    let a := "A".toList
    let c := "C".toList
    let row (key value : Text) (comment : String) (disabled : Bool) : Row :=
      { key, value, comment := comment.toList, disabled }
    let pre := [row a ['u'] "old" true, row a ['v'] "older" true]
    let first := row a ['w'] "" false
    let later := [row a ['u'] "again" false, row a ['w'] "" true, row a ['x'] "" true]
    let rows :=
      [row a ['u'] "old" true, row c ['y'] "kept" true, row a ['v'] "older" true,
        row ['B'] ['z'] "" false, first, row a ['u'] "again" false, row c ['z'] "" true,
        row a ['w'] "" true, row a ['x'] "" true]
    (∀ r ∈ rows, r.shadows = []) ∧ occurrences a rows = pre ++ first :: later ∧
      (insertAll {} rows).rows.find? a =
        some
          { key := a, value := ['w'], comment := "old".toList,
            shadows := [['u'], ['v'], ['x']] } ∧
      (insertAll {} rows).rows.find? c =
        some { key := c, value := ['y'], comment := "kept".toList, disabled := true } := by
  intro a c row pre first later rows
  have fresh : ∀ r ∈ rows, r.shadows = [] := by decide
  have hos : occurrences a rows = pre ++ first :: later := by decide
  obtain ⟨-, live, disabled⟩ := find?_insertAll rows fresh
  refine ⟨fresh, hos, ?_, ?_⟩
  · rw [live a pre first later hos (by decide) rfl]
    decide
  · rw [disabled c (row c ['y'] "kept" true) [row c ['z'] "" true] (by decide) (by decide)]

end Reader

end EnvFile
