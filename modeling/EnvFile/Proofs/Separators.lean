import EnvFile.Proofs.ClosingQuotes

/-! # The two separators

    Behind `=` a quoted value is tried before a bare one.  Behind a colon it is
    the other way round if the gap is wider than the one blank that a colon
    needs.  Mostly this does not show, as both forms give the same value and
    the same comment.

    * `Assignment.outcome_bare?_iff`: when the two forms of one text differ.
    * `Statement.read?_colon_iff`: when the two separators differ. -/

namespace EnvFile

namespace Assignment

variable {t raw comment : Text}

/-! ## The bare form -/

/-- Without a comment marker all of the line is the value. -/
theorem bare?_unmarked (line : '\n' ∉ t) (mark : '#' ∉ t) : bare? t = some (t, []) := by
  have bare : ∀ c ∈ t, isBareChar c = true := by
    intro c hc
    have hm : c ≠ '#' := fun e => mark (e ▸ hc)
    have hl : c ≠ '\n' := fun e => line (e ▸ hc)
    simp [isBareChar, hm, hl]
  have whole : t.takeWhile isBareChar = t := by simpa using bare
  rw [bare?, whole, List.dropWhile_eq_nil_iff.2 bare]
  rfl

/-- The first comment marker ends the value. -/
theorem bare?_marked {u v : Text} (line : '\n' ∉ u ++ '#' :: v) (mark : '#' ∉ u) :
    bare? (u ++ '#' :: v) = some (u, v) := by
  rw [List.mem_append, List.mem_cons, not_or, not_or] at line
  have bare : ∀ c ∈ u, isBareChar c = true := by
    intro c hc
    have hm : c ≠ '#' := fun e => mark (e ▸ hc)
    have hl : c ≠ '\n' := fun e => line.1 (e ▸ hc)
    simp [isBareChar, hm, hl]
  have stop : isBareChar '#' = false := by decide
  obtain ⟨take, drop⟩ := Text.span_append_cons bare stop v
  rw [bare?, take, drop]
  simp [trailer?, isBlank, line.2.2]

/-- A line is always a bare value with a comment or without. -/
theorem exists_bare? (line : '\n' ∉ t) : ∃ p, bare? t = some p := by
  by_cases mark : '#' ∈ t
  · obtain ⟨u, v, rfl, first⟩ := List.eq_append_cons_of_mem mark
    exact ⟨_, bare?_marked line first⟩
  · exact ⟨_, bare?_unmarked line mark⟩

/-! ## The forms compared -/

/-- The line is a quoted value with a comment marker inside. -/
def QuotesMark (t : Text) : Prop :=
  ∃ q u v w, Value.isQuote q = true ∧ t = q :: (u ++ '#' :: (v ++ q :: w)) ∧ IsTrailer w

/-- Where the quoted form ends. -/
theorem of_quoted? (h : quoted? t = some (raw, comment)) :
    ∃ q u w, Value.isQuote q = true ∧ t = q :: (u ++ q :: w) ∧ raw = q :: (u ++ [q]) ∧
      trailer? w = some comment := by
  cases t with
  | nil => cases h
  | cons q t =>
    rw [quoted?] at h
    split at h
    · rename_i quote
      obtain ⟨⟨u, d⟩, last, e⟩ := Option.map_eq_some_iff.1 h
      cases e
      obtain ⟨w, rfl, trails, -⟩ := lastClosing?_eq_some_iff.1 last
      exact ⟨q, u, w, quote, rfl, rfl, trails⟩
    · cases h

theorem quotesMark_iff (line : '\n' ∉ t) :
    QuotesMark t ↔ ((quoted? t).any fun p => p.1.contains '#') = true := by
  rw [Option.any_eq_true]
  constructor
  · rintro ⟨q, u, v, w, quote, rfl, trails⟩
    have w_line : '\n' ∉ w := fun h => line (by simp [h])
    obtain ⟨d, hd⟩ := Option.isSome_iff_exists.1 ((trailer?_isSome_iff w_line).2 trails)
    have last := lastClosing?_append hd (q := q) (u ++ '#' :: v)
    rw [List.append_assoc, List.cons_append] at last
    refine ⟨_, by rw [quoted?_cons quote, last, Option.map_some], ?_⟩
    -- a later quote can only add to the value
    cases lastClosing? q w <;> simp
  · rintro ⟨⟨raw, comment⟩, h, mark⟩
    obtain ⟨q, u, w, quote, rfl, rfl, trails⟩ := of_quoted? h
    have w_line : '\n' ∉ w := fun h => line (by simp [h])
    have quote_mark : '#' ≠ q := (ne_of_class quote (by decide)).symm
    have inside : '#' ∈ u := by simpa [quote_mark] using mark
    obtain ⟨u, v, rfl⟩ := List.append_of_mem inside
    refine ⟨q, u, v, w, quote, by simp, ?_⟩
    rw [← trailer?_isSome_iff w_line, trails]
    rfl

/-- Without a marker inside, the quotes do not matter. -/
theorem bare?_of_quoted? (line : '\n' ∉ t) (h : quoted? t = some (raw, comment))
    (mark : '#' ∉ raw) :
    ∃ bare, bare? t = some (bare, comment) ∧ bare.trim = raw.trim := by
  obtain ⟨q, u, w, quote, rfl, rfl, trails⟩ := of_quoted? h
  obtain ⟨blanks, blank, ends⟩ := of_trailer? trails
  have text (post : Text) :
      q :: (u ++ q :: (blanks ++ post)) = q :: (u ++ [q]) ++ blanks ++ post := by simp
  have front_mark : '#' ∉ q :: (u ++ [q]) ++ blanks := by
    intro hm
    rcases List.mem_append.1 hm with hm | hm
    · exact mark hm
    · exact absurd (blank _ hm) (by decide)
  refine ⟨q :: (u ++ [q]) ++ blanks, ?_, Text.strip_append_right blank _⟩
  -- the bare form ends where the quoted one does, blanks apart
  rcases ends with ⟨rfl, rfl⟩ | rfl
  · have := text []
    rw [List.append_nil, List.append_nil] at this
    rw [this] at line ⊢
    exact bare?_unmarked line front_mark
  · rw [text] at line ⊢
    exact bare?_marked line front_mark

/-- With a marker inside, the bare form takes more for the comment. -/
theorem comment_ne_of_quoted? (line : '\n' ∉ t) (h : quoted? t = some (raw, comment))
    (mark : '#' ∈ raw) :
    ∃ bare more, bare? t = some (bare, more) ∧ more.trim ≠ comment.trim := by
  obtain ⟨q, u, w, quote, rfl, rfl, trails⟩ := of_quoted? h
  have quote_mark : '#' ≠ q := (ne_of_class quote (by decide)).symm
  have inside : '#' ∈ u := by simpa [quote_mark] using mark
  obtain ⟨u, v, rfl, first⟩ := List.eq_append_cons_of_mem inside
  have text : q :: (u ++ '#' :: v ++ q :: w) = (q :: u) ++ '#' :: (v ++ q :: w) := by simp
  rw [text] at line ⊢
  have front_mark : '#' ∉ q :: u := by simp [quote_mark, first]
  exact ⟨q :: u, v ++ q :: w, bare?_marked line front_mark,
    trim_ne_of_trailer? (Value.isBlank_of_isQuote quote) trails v⟩

/-- **The two forms differ exactly on quoted values with a comment marker
    inside.** -/
theorem ofParts_bare?_iff (key : Text) (line : '\n' ∉ t) :
    ∃ p p', bare? t = some p ∧ (quoted? t).or (bare? t) = some p' ∧
      (ofParts key p = ofParts key p' ↔ ¬ QuotesMark t) := by
  rw [quotesMark_iff line]
  cases h : quoted? t with
  | none =>
    obtain ⟨p, hp⟩ := exists_bare? line
    exact ⟨p, p, hp, hp, by simp⟩
  | some p' =>
    obtain ⟨raw, comment⟩ := p'
    by_cases mark : '#' ∈ raw
    · obtain ⟨bare, more, hp, ne⟩ := comment_ne_of_quoted? line h mark
      refine ⟨_, _, hp, rfl, ?_⟩
      have differ : ofParts key (bare, more) ≠ ofParts key (raw, comment) :=
        fun e => ne (congrArg Assignment.comment e)
      simp [mark, differ]
    · obtain ⟨bare, hp, trim⟩ := bare?_of_quoted? line h mark
      refine ⟨_, _, hp, rfl, ?_⟩
      simp [mark, ofParts, trim]

/-! ## Behind a separator -/

/-- The one blank that a colon needs makes no difference. -/
theorem rawValue?_colon_narrow (narrow : t.head?.any isBlank = false) :
    rawValue? .colon (' ' :: t) = rawValue? .equals t := by
  have space : isBlank ' ' = true := by decide
  have gap : t.takeWhile isBlank = [] := by
    cases t with
    | nil => rfl
    | cons c t => exact List.takeWhile_cons_of_neg (by simpa using narrow)
  rw [rawValue?_equals, rawValue?, List.takeWhile_cons_of_pos space,
    List.dropWhile_cons_of_pos space, gap]
  simp [isWide]

/-- Behind a wider gap the bare form comes first. -/
theorem rawValue?_colon_wide (line : '\n' ∉ t) (wide : t.head?.any isBlank = true) :
    rawValue? .colon (' ' :: t) =
      (bare? (t.dropWhile isBlank)).or (quoted? (t.dropWhile isBlank)) := by
  have space : isBlank ' ' = true := by decide
  obtain ⟨c, u, rfl⟩ : ∃ c u, t = c :: u := by
    cases t with
    | nil => cases wide
    | cons c u => exact ⟨c, u, rfl⟩
  have head : isBlank c = true := wide
  have gap : isWide (' ' :: (c :: u).takeWhile isBlank) = true := by
    rw [List.takeWhile_cons_of_pos head, isWide]
    have last : (' ' :: c :: u.takeWhile isBlank).getLast? ≠ some '\n' := by
      intro h
      rcases List.mem_cons.1 (List.mem_of_getLast? h) with h | h
      · exact absurd h (by decide)
      · exact line ((List.takeWhile_sublist (l := c :: u) isBlank).subset
          (by rwa [List.takeWhile_cons_of_pos head]))
    simpa using last
  rw [rawValue?, List.takeWhile_cons_of_pos space, List.dropWhile_cons_of_pos space, gap]
  simp

end Assignment

/-! ## Lines -/

namespace Statement

open Assignment in
/-- **A colon and a blank mean the same as an equals sign, unless a quoted value
    with a comment marker inside stands behind a wider gap.**  Both are read as
    an assignment to the key in any case. -/
theorem read?_colon_iff {key r : Text} (legible : Key.Legible key) (line : '\n' ∉ r)
    (holds : ∃ c ∈ r, isBlank c = false) :
    ∃ a b : Assignment,
      read? (key ++ ": ".toList ++ r) = some (.assignment a) ∧
      read? (key ++ "=".toList ++ r) = some (.assignment b) ∧ a.key = key ∧ b.key = key ∧
      (a = b ↔ (r.head?.any isBlank = true → ¬ QuotesMark r.trim)) := by
  -- the blanks at the end of the line are dropped, and some of the line is left
  have left : Text.trimRight isBlank r ≠ [] := by
    intro nothing
    obtain ⟨c, hc, some⟩ := holds
    exact absurd (List.rdropWhile_eq_nil_iff.1 nothing c hc) (by simp [some])
  have end_blank : Text.trimRight isBlank (' ' :: r) = ' ' :: Text.trimRight isBlank r := by
    rw [Text.trimRight_cons, if_neg (by simp [left])]
  have head : (Text.trimRight isBlank r).head? = r.head? := by
    obtain ⟨rest, hrest⟩ := Text.trimRight_prefix isBlank r
    rw [← List.head?_append_of_ne_nil _ left, hrest]
  have body := Text.dropWhile_trimRight isBlank r
  have trimmed_line : '\n' ∉ Text.trimRight isBlank r :=
    fun h => line ((Text.trimRight_prefix isBlank r).subset h)
  have body_line : '\n' ∉ r.trim := fun h => line (Text.mem_of_mem_strip h)
  obtain ⟨p, p', bare, quoted, same⟩ := ofParts_bare?_iff key body_line
  have colon {p : Text × Text}
      (value : rawValue? .colon (' ' :: Text.trimRight isBlank r) = some p) :
      read? (key ++ ": ".toList ++ r) = some (.assignment (ofParts key p)) := by
    have text : key ++ ": ".toList ++ r = key ++ ':' :: ' ' :: r := by simp
    rw [text]
    exact read?_of_rawValue? legible (.inr rfl) (by rw [end_blank]; rfl) value
  have equals : read? (key ++ "=".toList ++ r) = some (.assignment (ofParts key p')) := by
    have text : key ++ "=".toList ++ r = key ++ '=' :: r := by simp
    rw [text]
    apply read?_of_rawValue? legible (.inl rfl) (separator?_equals _)
    rw [rawValue?_equals, body]
    exact quoted
  -- behind a narrow gap the two separators try the forms in the same order
  cases wide : r.head?.any isBlank with
  | false =>
    refine ⟨ofParts key p', ofParts key p', colon ?_, equals, rfl, rfl, by simp⟩
    rw [rawValue?_colon_narrow (by rw [head, wide]), rawValue?_equals, body]
    exact quoted
  | true =>
    refine ⟨ofParts key p, ofParts key p', colon ?_, equals, rfl, rfl, by simpa using same⟩
    rw [rawValue?_colon_wide trimmed_line (by rw [head, wide]), body]
    show (bare? r.trim).or _ = _
    rw [bare]
    rfl

/-- The gap is wide and the value is quoted, with a quote in its comment. -/
theorem read?_colon_sample :
    Key.Legible "K".toList ∧ '\n' ∉ " \"a b\"  # c 'd'".toList ∧
      (∃ c ∈ " \"a b\"  # c 'd'".toList, isBlank c = false) ∧
      ∃ a : Assignment, a.key = "K".toList ∧
        read? "K:  \"a b\"  # c 'd'".toList = some (.assignment a) ∧
        read? "K= \"a b\"  # c 'd'".toList = some (.assignment a) := by
  have holds : ∃ c ∈ " \"a b\"  # c 'd'".toList, isBlank c = false := ⟨'a', by decide, by decide⟩
  refine ⟨by decide, by decide, holds, ?_⟩
  obtain ⟨a, b, colon, equals, hkey, -, same⟩ :=
    read?_colon_iff (show Key.Legible "K".toList by decide)
      (show '\n' ∉ " \"a b\"  # c 'd'".toList by decide) holds
  obtain rfl := same.2 <| by
    intro _
    rw [Assignment.quotesMark_iff (by decide)]
    decide
  exact ⟨a, hkey, colon, equals⟩

/-- Behind a wide gap a quoted comment marker ends the value. -/
theorem read?_colon_ne :
    Key.Legible "K".toList ∧
      read? ("K".toList ++ ": ".toList ++ " \"a#b\"".toList) =
        some (.assignment ⟨"K".toList, "\"a".toList, "b\"".toList⟩) ∧
      read? ("K".toList ++ "=".toList ++ " \"a#b\"".toList) =
        some (.assignment ⟨"K".toList, "a#b".toList, []⟩) := by
  decide +kernel

end Statement

end EnvFile
