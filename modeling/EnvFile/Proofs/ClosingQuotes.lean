import EnvFile.Proofs.WrittenStatement

/-! # Where a quoted value ends

    A quoted value runs to the last quote of its kind that only a comment
    follows, if anything does.  Escapes do not count here, nor does it matter
    whether the quote stands in the value or in the comment.

    * `IsTrailer`: what may follow a value.
    * `lastClosing?_eq_some_iff`: where the value ends.
    * `trim_ne_of_trailer?`: a comment that begins behind a quote is not one
      that the quote stands in. -/

namespace EnvFile

/-- Trimming keeps the characters that are not blank. -/
theorem Text.countP_trim (t : Text) :
    t.trim.countP (fun c => !isBlank c) = t.countP fun c => !isBlank c := by
  obtain ⟨pre, post, ht, hpre, hpost⟩ := exists_strip isBlank t
  have none {u : Text} (hu : ∀ c ∈ u, isBlank c = true) : u.countP (fun c => !isBlank c) = 0 := by
    apply List.countP_eq_zero.2
    intro c hc
    simp [hu c hc]
  have sum := congrArg (List.countP fun c => !isBlank c) ht
  rw [List.countP_append, List.countP_append, none hpre, none hpost] at sum
  rw [sum, Nat.zero_add, Nat.add_zero]
  rfl

namespace Assignment

variable {q : Char} {t comment : Text}

/-! ## Behind a value -/

/-- Only blanks follow, or blanks and a comment. -/
def IsTrailer (t : Text) : Prop :=
  ∀ c, (t.dropWhile isBlank).head? = some c → c = '#'

instance (t : Text) : Decidable (IsTrailer t) :=
  decidable_of_iff ((t.dropWhile isBlank).head?.all (· = '#') = true) <| by
    unfold IsTrailer
    cases (t.dropWhile isBlank).head? <;> simp

/-- What follows a value are blanks, with a comment behind them or without. -/
theorem of_trailer? (h : trailer? t = some comment) :
    ∃ blanks, (∀ c ∈ blanks, isBlank c = true) ∧
      ((t = blanks ∧ comment = []) ∨ t = blanks ++ '#' :: comment) := by
  have cut : t.takeWhile isBlank ++ t.dropWhile isBlank = t := List.takeWhile_append_dropWhile
  have blank : ∀ c ∈ t.takeWhile isBlank, isBlank c = true := fun c hc => List.mem_takeWhile_imp hc
  refine ⟨t.takeWhile isBlank, blank, ?_⟩
  unfold trailer? at h
  split at h
  · rename_i nothing
    rw [nothing, List.append_nil] at cut
    exact .inl ⟨cut.symm, (Option.some.inj h).symm⟩
  · rename_i c rest some
    split at h
    · rename_i mark
      cases h
      rw [some, mark.1] at cut
      exact .inr cut.symm
    · cases h

/-- On one line, `trailer?` decides what is a trailer. -/
theorem trailer?_isSome_iff (line : '\n' ∉ t) : (trailer? t).isSome = true ↔ IsTrailer t := by
  have whole : '\n' ∉ t.dropWhile isBlank := fun h => line ((List.dropWhile_sublist _).subset h)
  unfold trailer? IsTrailer
  cases hd : t.dropWhile isBlank with
  | nil => simp
  | cons c rest =>
    rw [hd, List.mem_cons, not_or] at whole
    by_cases mark : c = '#' <;> simp [mark, whole.2]

theorem trailer?_eq_none_iff (line : '\n' ∉ t) : trailer? t = none ↔ ¬ IsTrailer t := by
  rw [← trailer?_isSome_iff line]
  simp

theorem length_le_of_trailer? (h : trailer? t = some comment) :
    comment.countP (fun c => !isBlank c) ≤ t.countP fun c => !isBlank c := by
  obtain ⟨blanks, -, ⟨-, rfl⟩ | rfl⟩ := of_trailer? h
  · simp
  · rw [List.countP_append, List.countP_cons]
    omega

/-- A comment that begins behind a quote is not the text that the quote stands
    in. -/
theorem trim_ne_of_trailer? (hq : isBlank q = false) (h : trailer? t = some comment) (pre : Text) :
    (pre ++ q :: t).trim ≠ comment.trim := by
  intro same
  -- trimming loses blanks only, so the two would have equally many other characters;
  -- but the quote is one that the comment behind it lacks
  have count := congrArg (List.countP fun c => !isBlank c) same
  rw [Text.countP_trim, Text.countP_trim, List.countP_append, List.countP_cons] at count
  have less := length_le_of_trailer? h
  simp only [hq, Bool.not_false, if_true] at count
  omega

/-! ## The last quote -/

/-- A later quote comes first. -/
theorem lastClosing?_cons (q c : Char) (t : Text) :
    lastClosing? q (c :: t) =
      ((lastClosing? q t).map fun p => (c :: p.1, p.2)).or
        (if c = q then (trailer? t).map fun comment => ([], comment) else none) := by
  rw [lastClosing?]
  cases lastClosing? q t <;> rfl

theorem lastClosing?_cons_ne {c : Char} (h : c ≠ q) (t : Text) :
    lastClosing? q (c :: t) = (lastClosing? q t).map fun p => (c :: p.1, p.2) := by
  rw [lastClosing?_cons, if_neg h, Option.or_none]

/-- There is none if no trailer follows any quote. -/
theorem lastClosing?_eq_none_iff :
    lastClosing? q t = none ↔ ∀ pre post, t = pre ++ q :: post → trailer? post = none := by
  induction t with
  | nil => simp [lastClosing?]
  | cons c t ih =>
    rw [lastClosing?_cons, Option.or_eq_none_iff, Option.map_eq_none_iff, ih]
    constructor
    · rintro ⟨later, here⟩ pre post h
      cases pre with
      | nil =>
        obtain ⟨rfl, rfl⟩ := List.cons.inj h
        rw [if_pos rfl] at here
        exact Option.map_eq_none_iff.1 here
      | cons d pre => exact later pre post (List.cons.inj h).2
    · intro silent
      refine ⟨fun pre post h => silent (c :: pre) post (by rw [h, List.cons_append]), ?_⟩
      by_cases hc : c = q
      · rw [if_pos hc, silent [] t (by rw [hc, List.nil_append])]
        rfl
      · rw [if_neg hc]

/-- The quote at which a value ends is the last that a trailer follows. -/
theorem lastClosing?_eq_some_iff {body : Text} :
    lastClosing? q t = some (body, comment) ↔
      ∃ post, t = body ++ q :: post ∧ trailer? post = some comment ∧
        lastClosing? q post = none := by
  induction t generalizing body with
  | nil => simp [lastClosing?]
  | cons c t ih =>
    rw [lastClosing?_cons, Option.or_eq_some_iff, Option.map_eq_none_iff]
    constructor
    · rintro (later | ⟨none_later, here⟩)
      · -- the value goes on behind `c`
        obtain ⟨⟨b, d⟩, hp, e⟩ := Option.map_eq_some_iff.1 later
        cases e
        obtain ⟨post, rfl, trails, none_later⟩ := ih.1 hp
        exact ⟨post, rfl, trails, none_later⟩
      · split at here
        · rename_i hc
          obtain ⟨d, trails, e⟩ := Option.map_eq_some_iff.1 here
          cases e
          exact ⟨t, by rw [hc, List.nil_append], trails, none_later⟩
        · cases here
    · rintro ⟨post, h, trails, none_later⟩
      cases body with
      | nil =>
        obtain ⟨rfl, rfl⟩ := List.cons.inj h
        right
        exact ⟨none_later, by rw [if_pos rfl, trails, Option.map_some]⟩
      | cons d body =>
        obtain ⟨rfl, rfl⟩ := List.cons.inj h
        left
        rw [ih.2 ⟨post, rfl, trails, none_later⟩, Option.map_some]

/-- A quote that a trailer follows ends the value, unless a later one does. -/
theorem lastClosing?_append {post : Text} (trails : trailer? post = some comment) (body : Text) :
    lastClosing? q (body ++ q :: post) =
      some ((lastClosing? q post).elim (body, comment) fun p => (body ++ q :: p.1, p.2)) := by
  -- what closes behind the quote closes the whole text, else the quote does
  apply lastClosing?_eq_some_iff.2
  cases later : lastClosing? q post with
  | none => exact ⟨post, rfl, trails, later⟩
  | some p =>
    obtain ⟨rest, rfl, rest_trails, none_later⟩ := lastClosing?_eq_some_iff.1 later
    exact ⟨rest, by simp, rest_trails, none_later⟩

theorem quoted?_cons (hq : Value.isQuote q = true) (t : Text) :
    quoted? (q :: t) = (lastClosing? q t).map fun p => (q :: (p.1 ++ [q]), p.2) := by
  rw [quoted?, if_pos hq]

theorem rawValue?_equals (t : Text) :
    rawValue? .equals t = (quoted? (t.dropWhile isBlank)).or (bare? (t.dropWhile isBlank)) := by
  simp [rawValue?]

/-! ## Blanks at the end -/

theorem trailer?_trimRight (line : '\n' ∉ t) :
    trailer? (Text.trimRight isBlank t) = (trailer? t).map (Text.trimRight isBlank) := by
  induction t with
  | nil => rfl
  | cons c t ih =>
    rw [List.mem_cons, not_or] at line
    have later := ih line.2
    rw [Text.trimRight_cons]
    cases hc : isBlank c with
    | true =>
      -- blanks in front do not count
      have skip (u : Text) : trailer? (c :: u) = trailer? u := by
        unfold trailer?
        rw [List.dropWhile_cons_of_pos hc]
      rw [skip, ← later]
      split
      · rename_i nothing
        rw [nothing.1]
      · rw [skip]
    | false =>
      have stop (u : Text) (hu : '\n' ∉ u) :
          trailer? (c :: u) = if c = '#' then some u else none := by
        unfold trailer?
        rw [List.dropWhile_cons_of_neg (by simp [hc])]
        simp [hu]
      have trimmed : '\n' ∉ Text.trimRight isBlank t :=
        fun h => line.2 ((Text.trimRight_prefix isBlank t).subset h)
      rw [if_neg (by simp), stop t line.2, stop _ trimmed]
      split <;> rfl

/-- Blanks at the end of a line do not change where a value ends. -/
theorem lastClosing?_trimRight (hq : isBlank q = false) (line : '\n' ∉ t) :
    lastClosing? q (Text.trimRight isBlank t) =
      (lastClosing? q t).map fun p => (p.1, Text.trimRight isBlank p.2) := by
  induction t with
  | nil => rfl
  | cons c t ih =>
    rw [List.mem_cons, not_or] at line
    have later := ih line.2
    have trails := trailer?_trimRight line.2
    rw [Text.trimRight_cons]
    split
    · -- nothing is left, so there was no quote
      rename_i nothing
      have hc : c ≠ q := by
        rintro rfl
        rw [hq] at nothing
        cases nothing.2
      rw [nothing.1] at later
      rw [lastClosing?_cons_ne hc, Option.map_map, eq_comm, Option.map_eq_none_iff.2]
      · rfl
      · exact Option.map_eq_none_iff.1 later.symm
    · rw [lastClosing?_cons, lastClosing?_cons, later, trails]
      cases lastClosing? q t with
      | some p => rfl
      | none =>
        by_cases hc : c = q
        · simp [hc, Function.comp_def]
        · simp [hc]

/-- The assignment from its key, its value as written and its comment. -/
def ofParts (key : Text) (p : Text × Text) : Assignment :=
  { key, value := Value.read p.1.trim, comment := p.2.trim }

end Assignment

/-- What is read of a statement whose separator touches the key: it hangs on the
    value behind the separator alone. -/
theorem Statement.read?_of_rawValue? {key rest w : Text} {s : Char} {kind : Assignment.Separator}
    {p : Text × Text} (legible : Key.Legible key) (hs : s = '=' ∨ s = ':')
    (separates : Assignment.separator? (s :: Text.trimRight isBlank rest) = some (kind, w))
    (value : Assignment.rawValue? kind w = some p) :
    read? (key ++ s :: rest) = some (.assignment (Assignment.ofParts key p)) := by
  rw [read?_separated legible hs, ofBody?, Assignment.read?_separated legible hs separates, value]
  rfl

end EnvFile
