import EnvFile.Proofs.KeptValues

/-! # Which values survive being saved

    A storable value is read as it was written (`Storable.read_write`).  Here
    the converse is proved: no other value is.

    What is read between quotes are the characters of the value, but for three
    pairs of them (`Value.returned`).  So the argument counts characters.  A
    backslash in front of an `n` or an `r` costs that letter, and no letter is
    ever won; where no letter is lost, every dollar sign wins a backslash.  A
    text that comes back as it was has therefore none of the three pairs in it,
    even if blanks or quotes that stood around it are gone.

    * `Value.returned_eq_around`: what a text is that comes back as it was.
    * `Value.kept_eq_self_iff`: the values that come back are the storable ones.
    * `Statement.keeps_value_iff`: the line that is written for a value, and
      when it is read as that value. -/

namespace EnvFile

namespace Value

/-! ## What can be counted -/

theorem pair_infix_cons_iff {x c : Char} {t : Text} :
    ['\\', x] <:+: c :: t ↔ (c = '\\' ∧ t.head? = some x) ∨ ['\\', x] <:+: t := by
  rw [List.infix_cons_iff, List.cons_prefix_cons]
  refine or_congr_left (and_congr eq_comm ?_)
  cases t with
  | nil => simp
  | cons d t => simp [List.cons_prefix_cons, eq_comm]

/-- The letter of an escape never gets more frequent, and it gets less
    frequent where a backslash stands in front of it. -/
theorem count_letter_returned {letter : Char} (h : letter = 'n' ∨ letter = 'r') (t : Text) :
    (returned t).count letter ≤ t.count letter ∧
      (['\\', letter] <:+: t → (returned t).count letter < t.count letter) := by
  fun_induction returned t with
  | case1 t ih =>
    rcases h with rfl | rfl
    · -- this letter is gone
      have lost : ('\n' :: returned t).count 'n' < ('\\' :: 'n' :: t).count 'n' := by
        simpa using Nat.lt_succ_of_le ih.1
      exact ⟨Nat.le_of_lt lost, fun _ => lost⟩
    · simpa [pair_infix_cons_iff] using ih
  | case2 t ih =>
    rcases h with rfl | rfl
    · simpa [pair_infix_cons_iff] using ih
    · have lost : ('\r' :: returned t).count 'r' < ('\\' :: 'r' :: t).count 'r' := by
        simpa using Nat.lt_succ_of_le ih.1
      exact ⟨Nat.le_of_lt lost, fun _ => lost⟩
  | case3 t ih =>
    rcases h with rfl | rfl
    · simpa [pair_infix_cons_iff] using ih
    · simpa [pair_infix_cons_iff] using ih
  | case4 c t notN notR notDollar ih =>
    obtain ⟨le, lt⟩ := ih
    have apart : ¬ (c = '\\' ∧ t.head? = some letter) := by
      rintro ⟨rfl, hl⟩
      obtain ⟨u, rfl⟩ := List.head?_eq_some_iff.1 hl
      rcases h with rfl | rfl
      · exact notN u rfl rfl
      · exact notR u rfl rfl
    rw [pair_infix_cons_iff, or_iff_right apart, List.count_cons, List.count_cons]
    exact ⟨Nat.add_le_add_right le _, fun hi => Nat.add_lt_add_right (lt hi) _⟩
  | case5 => simp

/-- Where no letter is lost, every dollar sign brings a backslash. -/
theorem count_backslash_returned {t : Text} (newline : ¬ ['\\', 'n'] <:+: t)
    (creturn : ¬ ['\\', 'r'] <:+: t) :
    (returned t).count '\\' = t.count '\\' + t.count '$' := by
  fun_induction returned t with
  | case1 t ih => exact absurd (List.prefix_append ['\\', 'n'] t).isInfix newline
  | case2 t ih => exact absurd (List.prefix_append ['\\', 'r'] t).isInfix creturn
  | case3 t ih =>
    rw [pair_infix_cons_iff, not_or] at newline creturn
    have := ih newline.2 creturn.2
    simp
    omega
  | case4 c t notN notR notDollar ih =>
    rw [pair_infix_cons_iff, not_or] at newline creturn
    have := ih newline.2 creturn.2
    have hc : (c == '$') = false := by simpa using notDollar
    rw [List.count_cons, List.count_cons, List.count_cons, hc]
    simp only [Bool.false_eq_true, if_false]
    omega
  | case5 => rfl

/-- A text that comes back with something around it comes back as it was and
    has nothing around it, if what stands around it is neither a backslash nor
    a letter of an escape. -/
theorem returned_eq_around {t pre post : Text}
    (around : ∀ c ∈ pre ++ post, c ≠ 'n' ∧ c ≠ 'r' ∧ c ≠ '\\')
    (h : returned t = pre ++ t ++ post) :
    (pre = [] ∧ post = []) ∧ '$' ∉ t ∧ ¬ ['\\', 'n'] <:+: t ∧ ¬ ['\\', 'r'] <:+: t := by
  -- as far as these three characters go, nothing is lost and nothing is won
  have same : ∀ c, c ∉ pre ++ post → (returned t).count c = t.count c := by
    intro c hc
    obtain ⟨hpre, hpost⟩ := not_or.1 (mt List.mem_append.2 hc)
    rw [h, List.count_append, List.count_append, List.count_eq_zero.2 hpre,
      List.count_eq_zero.2 hpost, Nat.zero_add, Nat.add_zero]
  have newline : ¬ ['\\', 'n'] <:+: t := by
    intro hi
    have fewer := (count_letter_returned (.inl rfl) t).2 hi
    have := same 'n' fun hm => (around _ hm).1 rfl
    omega
  have creturn : ¬ ['\\', 'r'] <:+: t := by
    intro hi
    have fewer := (count_letter_returned (.inr rfl) t).2 hi
    have := same 'r' fun hm => (around _ hm).2.1 rfl
    omega
  have dollar : '$' ∉ t := by
    have more := count_backslash_returned newline creturn
    have := same '\\' fun hm => (around _ hm).2.2 rfl
    exact List.count_eq_zero.1 (by omega)
  rw [returned_eq_self dollar newline creturn] at h
  have length := congrArg List.length h
  simp only [List.length_append] at length
  have hpre : pre = [] := List.eq_nil_of_length_eq_zero (by omega)
  have hpost : post = [] := List.eq_nil_of_length_eq_zero (by omega)
  exact ⟨⟨hpre, hpost⟩, dollar, newline, creturn⟩

/-! ## Values that are kept -/

theorem of_unquote? {t body : Text} (h : unquote? t = some body) :
    ∃ q, isQuote q = true ∧ t = q :: (body ++ [q]) := by
  cases t with
  | nil => cases h
  | cons q t =>
    simp only [unquote?] at h
    split at h
    · rename_i hq
      cases h
      obtain ⟨quote, last⟩ := Bool.and_eq_true_iff.1 hq
      exact ⟨q, quote, by rw [List.dropLast_append_getLast? _ (beq_iff_eq.1 last)]⟩
    · cases h

/-- A value of plain characters is storable if the number that it denotes, if
    any, is written so. -/
theorem storable_of_plain {v : Text} (plain : ∀ c ∈ v, isPlain c = true)
    (canonical : ∀ n, Integer.read? v = some n → Integer.write n = v) : Storable v where
  trimmed := (Written.bare plain).trim
  unquoted := unquote?_of_plain plain
  dollar h := absurd (plain _ h) (by decide)
  newline h := absurd (plain _ (h.subset List.mem_cons_self)) (by decide)
  creturn h := absurd (plain _ (h.subset List.mem_cons_self)) (by decide)
  canonical

/-- What trimming takes off a value is neither a backslash nor a letter. -/
theorem exists_trim (v : Text) :
    ∃ pre post, v = pre ++ v.trim ++ post ∧
      ∀ c ∈ pre ++ post, c ≠ 'n' ∧ c ≠ 'r' ∧ c ≠ '\\' := by
  obtain ⟨pre, post, hv, hpre, hpost⟩ := Text.exists_strip isBlank v
  refine ⟨pre, post, hv, fun c hc => ?_⟩
  have blank : isBlank c = true := by
    rcases List.mem_append.1 hc with hc | hc
    · exact hpre c hc
    · exact hpost c hc
  exact ⟨ne_of_class blank (by decide), ne_of_class blank (by decide),
    ne_of_class blank (by decide)⟩

/-- Quotes around a value are gone for good. -/
theorem returned_ne_of_unquote? {v body : Text} (hu : unquote? v.trim = some body) :
    returned body ≠ v := by
  intro h
  obtain ⟨q, hq, ht⟩ := of_unquote? hu
  obtain ⟨pre, post, hv, around⟩ := exists_trim v
  have quote : q ≠ 'n' ∧ q ≠ 'r' ∧ q ≠ '\\' :=
    ⟨ne_of_class hq (by decide), ne_of_class hq (by decide), ne_of_class hq (by decide)⟩
  have whole : returned body = (pre ++ [q]) ++ body ++ (q :: post) := by
    rw [h, hv, ht]
    simp
  have around' : ∀ c ∈ (pre ++ [q]) ++ (q :: post), c ≠ 'n' ∧ c ≠ 'r' ∧ c ≠ '\\' := by
    intro c hc
    by_cases e : c = q
    · rwa [e]
    · exact around c (by simpa [e] using hc)
  have := (returned_eq_around around' whole).1.2
  cases this

/-- A value that is written bare and comes back is storable. -/
theorem storable_of_bare? {v u : Text} (hb : bare? v.trim = some u) (h : read u = v) :
    Storable v := by
  have plain : ∀ c ∈ u, isPlain c = true := fun c hc => isPlain_of_bare? hb hc
  rw [read_of_plain plain] at h
  subst h
  rw [(Written.bare plain).trim] at hb
  refine storable_of_plain plain fun n hn => ?_
  unfold bare? at hb
  split at hb
  · rename_i word
    have none : Integer.read? u = none := by rcases word with rfl | rfl <;> decide
    rw [none] at hn
    cases hn
  · rw [hn] at hb
    exact Option.some.inj hb

/-- A value that is written between quotes and comes back is storable. -/
theorem storable_of_returned {v : Text} (hu : unquote? v.trim = none) (hb : bare? v.trim = none)
    (h : returned v.trim = v) : Storable v := by
  obtain ⟨pre, post, hv, around⟩ := exists_trim v
  obtain ⟨⟨rfl, rfl⟩, dollar, newline, creturn⟩ := returned_eq_around around (h.trans hv)
  have trimmed : v.trim = v := by simpa using hv.symm
  rw [trimmed] at hu hb dollar newline creturn
  refine ⟨trimmed, hu, dollar, newline, creturn, fun n hn => ?_⟩
  -- a number would have been written bare
  unfold bare? at hb
  split at hb
  · cases hb
  · rw [hn] at hb
    cases hb

/-- **Whatever comes back as it was is storable.** -/
theorem storable_of_kept {v : Text} (h : kept v = v) : Storable v := by
  simp only [kept, write] at h
  split at h
  · -- nothing is written
    have hnil : v = [] := h.symm
    rw [hnil]
    decide
  · split at h
    · rename_i body hu
      rw [read_quote] at h
      exact absurd h (returned_ne_of_unquote? hu)
    · rename_i hu
      cases hb : bare? v.trim with
      | some u =>
        rw [hb, Option.getD_some] at h
        exact storable_of_bare? hb h
      | none =>
        rw [hb, Option.getD_none, read_quote] at h
        exact storable_of_returned hu hb h

theorem kept_eq_self_iff {v : Text} : kept v = v ↔ Storable v :=
  ⟨storable_of_kept, fun h => h.read_write⟩

end Value

/-! ## Assignments -/

/-- **Which values survive being saved.**  Whatever the value, the line that is
    written for it reads as an assignment of its key without a comment.  The
    value comes back exactly if it has no blanks and no pair of quotes around
    it, no dollar sign, no backslash in front of an `n` or an `r`, and, if it
    denotes a number, the canonical text of that number. -/
theorem Statement.keeps_value_iff {key : Text} (h : Key.Legible key) (v : Text) :
    ∃ a, Statement.read? (key ++ '=' :: Value.write v) = some (.assignment a) ∧
      a.key = key ∧ a.comment = [] ∧
      (a.value = v ↔
        v.trim = v ∧ Value.unquote? v = none ∧ '$' ∉ v ∧ ¬ ['\\', 'n'] <:+: v ∧
          ¬ ['\\', 'r'] <:+: v ∧ ∀ n, Integer.read? v = some n → Integer.write n = v) := by
  refine ⟨_, Statement.read?_written h v, rfl, rfl, Value.kept_eq_self_iff.trans ?_⟩
  constructor
  · rintro ⟨h₁, h₂, h₃, h₄, h₅, h₆⟩
    exact ⟨h₁, h₂, h₃, h₄, h₅, h₆⟩
  · rintro ⟨h₁, h₂, h₃, h₄, h₅, h₆⟩
    exact ⟨h₁, h₂, h₃, h₄, h₅, h₆⟩

/-- A value with every character that is escaped comes back; one letter behind
    a backslash is enough, and it does not. -/
theorem Statement.keeps_value_iff_escapes :
    let key := "app.Home_2".toList
    let safe := "\\\\ \"x\" \\\n\r# =\x60'".toList
    let lost := "C:\\new".toList
    Key.Legible key ∧
      (∃ a, Statement.read? (key ++ '=' :: Value.write safe) = some (.assignment a) ∧
        a.key = key ∧ a.comment = [] ∧ a.value = safe) ∧
      ∃ a, Statement.read? (key ++ '=' :: Value.write lost) = some (.assignment a) ∧
        a.key = key ∧ a.comment = [] ∧ a.value ≠ lost := by
  intro key safe lost
  have legible : Key.Legible key := by decide
  obtain ⟨a, read, hkey, comment, kept⟩ := Statement.keeps_value_iff legible safe
  obtain ⟨b, read', hkey', comment', kept'⟩ := Statement.keeps_value_iff legible lost
  refine ⟨legible, ⟨a, read, hkey, comment, kept.2 ?_⟩, b, read', hkey', comment', fun e => ?_⟩
  · have storable : Value.Storable safe := by decide
    exact ⟨storable.trimmed, storable.unquoted, storable.dollar, storable.newline,
      storable.creturn, storable.canonical⟩
  · exact absurd (kept'.1 e).2.2.2.1 (by decide)

end EnvFile
