import EnvFile.Proofs.Framing

/-! # Texts between quotes

    A single quote closes a value wherever it stands.  A double quote does so
    unless it is escaped, which it is behind an odd number of backslashes.  A
    text is *enclosed* by two quotes if the second of them is the first that
    closes.

    The framing of a file looks for the closing quote line by line and carries
    a flag along.  Both views are the same:

    * `closes_iff`: what closes a quote is an unescaped one.
    * `closes_lines`: a quote closes in a text if it closes in one of its lines.
    * `group_enclosed`: a statement whose value is enclosed is framed as it is,
      whatever stands below it. -/

namespace EnvFile.Segment

variable {q : Char} {t : Text}

/-! ## Escaped quotes -/

/-- A quote `q` behind this text is escaped. -/
def IsEscaped (q : Char) (before : Text) : Prop :=
  q = '"' ∧ (before.rtakeWhile (· == '\\')).length % 2 = 1

instance (q : Char) (before : Text) : Decidable (IsEscaped q before) :=
  inferInstanceAs (Decidable (q = '"' ∧ (before.rtakeWhile (· == '\\')).length % 2 = 1))

/-- Two quotes `q` enclose the text: those in it are escaped, and the one
    behind it is not. -/
structure Encloses (q : Char) (t : Text) : Prop where
  inside : ∀ pre post, t = pre ++ q :: post → IsEscaped q pre
  behind : ¬ IsEscaped q t

/-- Is the character behind a text escaped, if the first one of the text is
    `escaped` or not? -/
def escapesNext (q : Char) (escaped : Bool) (t : Text) : Bool :=
  t.foldl (fun e c => q == '"' && c == '\\' && !e) escaped

theorem closes_append (q : Char) (escaped : Bool) (t u : Text) :
    closes q escaped (t ++ u) = (closes q escaped t || closes q (escapesNext q escaped t) u) := by
  induction t generalizing escaped with
  | nil => rfl
  | cons c t ih =>
    have step : escapesNext q escaped (c :: t) =
        escapesNext q (q == '"' && c == '\\' && !escaped) t := rfl
    rw [List.cons_append, closes, closes, ih, step, Bool.or_assoc]

theorem escapesNext_concat (q : Char) (t : Text) (c : Char) :
    escapesNext q false (t ++ [c]) = (q == '"' && c == '\\' && !escapesNext q false t) := by
  unfold escapesNext
  rw [List.foldl_append]
  rfl

/-- The flag says whether the number of backslashes is odd. -/
theorem escapesNext_iff : escapesNext q false t = true ↔ IsEscaped q t := by
  induction t using List.reverseRecOn with
  | nil => simp [escapesNext, IsEscaped]
  | append_singleton t c ih =>
    rw [escapesNext_concat]
    unfold IsEscaped at ih ⊢
    by_cases hc : c = '\\'
    · -- one backslash more turns odd into even, and even into odd
      subst hc
      rw [List.rtakeWhile_concat_pos _ _ _ (by rfl), List.length_append, List.length_singleton]
      by_cases hq : q = '"'
      · simp only [hq, true_and] at ih ⊢
        simp only [beq_self_eq_true, Bool.and_self, Bool.true_and, Bool.not_eq_true',
          ← Bool.not_eq_true, ih]
        omega
      · simp [hq]
    · rw [List.rtakeWhile_concat_neg _ _ _ (by simpa using hc)]
      simp [hc]

/-- What closes a quote is a quote of its kind that is not escaped. -/
theorem closes_iff :
    closes q false t = true ↔ ∃ pre post, t = pre ++ q :: post ∧ ¬ IsEscaped q pre := by
  induction t using List.reverseRecOn with
  | nil => simp [closes]
  | append_singleton t c ih =>
    have last : closes q (escapesNext q false t) [c] = true ↔ c = q ∧ ¬ IsEscaped q t := by
      rw [← escapesNext_iff]
      simp [closes]
    rw [closes_append, Bool.or_eq_true, ih, last]
    constructor
    · rintro (⟨pre, post, rfl, unescaped⟩ | ⟨rfl, unescaped⟩)
      · exact ⟨pre, post ++ [c], by simp, unescaped⟩
      · exact ⟨t, [], rfl, unescaped⟩
    · rintro ⟨pre, post, h, unescaped⟩
      -- the quote is the last character, or it stands in front of it
      rcases List.eq_nil_or_concat' post with rfl | ⟨post, d, rfl⟩
      · obtain ⟨rfl, e⟩ := List.append_inj' h rfl
        exact .inr ⟨List.singleton_inj.1 e, unescaped⟩
      · rw [← List.cons_append, ← List.append_assoc] at h
        exact .inl ⟨pre, post, (List.append_inj' h rfl).1, unescaped⟩

/-- Nothing closes in a text that is enclosed, and the flag is down at its
    end. -/
theorem encloses_iff :
    Encloses q t ↔ closes q false t = false ∧ escapesNext q false t = false := by
  rw [← Bool.not_eq_true, ← Bool.not_eq_true, closes_iff, escapesNext_iff]
  constructor
  · intro h
    refine ⟨?_, h.behind⟩
    rintro ⟨pre, post, e, unescaped⟩
    exact unescaped (h.inside pre post e)
  · rintro ⟨open', behind⟩
    refine ⟨?_, behind⟩
    intro pre post e
    by_contra unescaped
    exact open' ⟨pre, post, e, unescaped⟩

instance (q : Char) (t : Text) : Decidable (Encloses q t) :=
  decidable_of_iff _ encloses_iff.symm

theorem Encloses.closes (h : Encloses q t) (tail : Text) :
    closes q false (t ++ q :: tail) = true :=
  closes_iff.2 ⟨t, tail, rfl, h.behind⟩

/-! ## Line by line -/

/-- No quote is escaped at the beginning of a line. -/
theorem escapesNext_newline (q : Char) (t : Text) : escapesNext q false (t ++ ['\n']) = false := by
  rw [escapesNext_concat]
  simp

theorem closes_joinLines (hq : q ≠ '\n') (ls : List Text) :
    closes q false (Text.joinLines ls) = ls.any (closes q false) := by
  induction ls with
  | nil => rfl
  | cons l ls ih =>
    cases ls with
    | nil => simp
    | cons m ls =>
      have feed : closes q false (l ++ ['\n']) = closes q false l := by
        rw [closes_append]
        simp [Segment.closes, Ne.symm hq]
      rw [Text.joinLines_cons_cons, List.append_cons, closes_append, escapesNext_newline, feed, ih]
      rfl

/-- A quote closes in a text if it closes in one of its lines. -/
theorem closes_lines (hq : q ≠ '\n') (t : Text) :
    closes q false t = t.lines.any (closes q false) := by
  rw [← closes_joinLines hq, Text.joinLines_lines]

/-! ## Framing -/

theorem newline_ne_of_isQuote (h : Value.isQuote q = true) : q ≠ '\n' :=
  ne_of_class h (by decide)

/-- The first line that closes a quote is found behind lines that do not. -/
theorem findIdx?_closes {last : Text} {mid : List Text}
    (mid_open : ∀ m ∈ mid, closes q false m = false) (closed : closes q false last = true)
    (ls : List Text) : (mid ++ [last] ++ ls).findIdx? (closes q false) = some mid.length := by
  have absent : mid.findIdx? (closes q false) = none := by simpa using mid_open
  rw [List.append_assoc, List.findIdx?_append, absent, List.singleton_append,
    List.findIdx?_cons, if_pos closed]
  simp

section Framing

variable {l : Text} (opens : opening? l = some (q, t))
include opens

/-- If a line opens a quote, the lines below belong to it up to the one that
    closes the quote. -/
theorem further?_of_opening? (ls : List Text) :
    further? (l :: ls) =
      if closes q false t then none else (ls.findIdx? (closes q false)).map (· + 1) := by
  have blank := (of_opening? opens).2.1
  unfold further?
  rw [blank, opens]
  rfl

/-- A quote that closes on its line needs no further lines. -/
theorem group_closed (closed : closes q false t = true) (ls : List Text) :
    group (l :: ls) = [l] :: group ls := by
  rw [group, further?_of_opening? opens, if_pos closed]
  rfl

/-- A quote that does not takes in the lines up to the first that closes it. -/
theorem group_open {last : Text} {mid : List Text} (first_open : closes q false t = false)
    (mid_open : ∀ m ∈ mid, closes q false m = false) (closed : closes q false last = true)
    (ls : List Text) :
    group (l :: (mid ++ [last]) ++ ls) = (l :: (mid ++ [last])) :: group ls := by
  have length : (mid ++ [last]).length = mid.length + 1 := by simp
  rw [List.cons_append, group, further?_of_opening? opens, first_open,
    findIdx?_closes mid_open closed ls]
  show (_ :: List.take (mid.length + 1) _) :: group (List.drop (mid.length + 1) _) = _
  rw [← length, List.take_left, List.drop_left]

end Framing

/-- Of the lines of an enclosed text and of what stands behind it on its last
    line, the last is the first that closes the quote. -/
theorem exists_lines_of_encloses {body tail : Text} (encloses : Encloses q body)
    (hq : Value.isQuote q = true) (several : '\n' ∈ body) (htail : '\n' ∉ tail) :
    ∃ first mid last, body.lines = first :: (mid ++ [last]) ∧
      closes q false first = false ∧ (∀ l ∈ mid, closes q false l = false) ∧
      closes q false (last ++ q :: tail) = true := by
  have feed : q ≠ '\n' := newline_ne_of_isQuote hq
  have behind : '\n' ∉ q :: tail := by simp [htail, Ne.symm feed]
  obtain ⟨first, mid, last, lines⟩ := Text.exists_lines_of_mem several
  -- nothing closes in the text, so none of its lines closes the quote
  have silent : ∀ l ∈ body.lines, closes q false l = false := by
    have none := (encloses_iff.1 encloses).1
    rw [closes_lines feed] at none
    simpa using none
  rw [lines] at silent
  have first_open := silent first List.mem_cons_self
  have mid_open : ∀ l ∈ mid, closes q false l = false := by
    intro l hl
    exact silent l (List.mem_cons_of_mem first (List.mem_append_left _ hl))
  refine ⟨first, mid, last, lines, first_open, mid_open, ?_⟩
  -- the quote behind the text closes, so it does on the last line
  have closed := encloses.closes tail
  have lines' := Text.lines_wrap (u := []) List.not_mem_nil behind lines
  rw [List.nil_append, List.nil_append] at lines'
  rw [closes_lines feed, lines', List.any_cons, first_open, List.any_append,
    List.any_eq_false.2 (by simpa using mid_open)] at closed
  simpa using closed

/-- **A statement whose value is enclosed is framed as it is,** whatever stands
    in front of the value and behind it, and whatever stands below. -/
theorem group_enclosed {u body tail : Text} (hq : Value.isQuote q = true)
    (opens : ∀ t, opening? (u ++ q :: t) = some (q, t)) (hu : '\n' ∉ u) (htail : '\n' ∉ tail)
    (encloses : Encloses q body) (ls : List Text) :
    group ((u ++ q :: (body ++ q :: tail)).lines ++ ls) =
      (u ++ q :: (body ++ q :: tail)).lines :: group ls := by
  have feed : q ≠ '\n' := newline_ne_of_isQuote hq
  by_cases hn : '\n' ∈ body
  · obtain ⟨first, mid, last, lines, first_open, mid_open, last_closed⟩ :=
      exists_lines_of_encloses encloses hq hn htail
    have wrapped : (u ++ q :: (body ++ q :: tail)).lines =
        (u ++ q :: first) :: (mid ++ [last ++ q :: tail]) := by
      have front : '\n' ∉ u ++ [q] := by simp [hu, Ne.symm feed]
      have behind : '\n' ∉ q :: tail := by simp [htail, Ne.symm feed]
      simpa using Text.lines_wrap front behind lines
    rw [wrapped]
    exact group_open (opens first) first_open mid_open last_closed ls
  · have line : (u ++ q :: (body ++ q :: tail)).lines = [u ++ q :: (body ++ q :: tail)] := by
      apply Text.lines_of_not_mem
      simp [hu, hn, htail, Ne.symm feed]
    rw [line]
    exact group_closed (opens _) (encloses.closes tail) ls

end EnvFile.Segment
