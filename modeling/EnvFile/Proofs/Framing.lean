import EnvFile.Proofs.WrittenStatement
import EnvFile.Segment

/-! # Lines that are segments

    A line is a segment of its own if it closes whatever quote it opens.  The
    lines that are written for a document are of this kind (`stands_nil`,
    `stands_mark`, `stands_assignmentLine`), so the text of such lines is cut
    where it was put together (`ofText_joinLines`). -/

namespace EnvFile.Segment

/-- A line that closes whatever quote it opens. -/
structure Stands (l : Text) : Prop where
  whole : '\n' ∉ l
  closed : ∀ q t, opening? l = some (q, t) → closes q false t = true

variable {ls : List Text}

theorem further?_of_stands (h : ∀ l ∈ ls, Stands l) : further? ls = none := by
  induction ls with
  | nil => rfl
  | cons l ls ih =>
    have hl := h l List.mem_cons_self
    have hls := ih fun m hm => h m (List.mem_cons_of_mem l hm)
    unfold further?
    rw [hls]
    split
    · rfl
    · split
      · rfl
      · rename_i q t hq
        rw [if_pos (hl.closed q t hq)]

theorem group_of_stands (h : ∀ l ∈ ls, Stands l) : group ls = ls.map fun l => [l] := by
  induction ls with
  | nil => rw [group, List.map_nil]
  | cons l ls ih =>
    have hls := ih fun m hm => h m (List.mem_cons_of_mem l hm)
    rw [group, further?_of_stands h]
    show [l] :: group ls = _
    rw [hls, List.map_cons]

theorem fileLines_joinLines (h : ∀ l ∈ ls, '\n' ∉ l) (last : ls.getLast? ≠ some []) :
    fileLines (Text.joinLines ls) = ls := by
  unfold fileLines
  by_cases hnil : ls = []
  · subst hnil
    decide
  · rw [Text.lines_joinLines h hnil, if_neg last]

/-- A text that does not end in a line feed keeps its last line. -/
theorem fileLines_of_getLast? {t : Text} {c : Char} (last : t.getLast? = some c) (hc : c ≠ '\n') :
    fileLines t = t.lines := by
  obtain ⟨u, rfl⟩ := List.getLast?_eq_some_iff.1 last
  exact if_neg (Text.getLast?_lines_concat hc u)

/-- Lines that stand alone come back as segments. -/
theorem ofText_joinLines (h : ∀ l ∈ ls, Stands l) (last : ls.getLast? ≠ some []) :
    ofText (Text.joinLines ls) = number 1 (ls.map fun l => [l]) := by
  unfold ofText
  rw [fileLines_joinLines (fun l hl => (h l hl).whole) last, group_of_stands h]

/-! ## What stands alone -/

theorem stands_nil : Stands [] :=
  ⟨by simp, fun q t h => by simp [opening?] at h⟩

/-- A line behind a comment marker opens no quote. -/
theorem opening?_mark (t : Text) : opening? ('#' :: t) = none := by
  unfold opening?
  rw [List.dropWhile_cons_of_neg (by decide)]
  rfl

theorem stands_mark {t : Text} (h : '\n' ∉ t) : Stands ('#' :: t) where
  whole := by simpa using h
  closed := by
    intro q u hq
    rw [opening?_mark] at hq
    cases hq

theorem isAsciiBlank_eq_false {c : Char} (h : isBlank c = false) : isAsciiBlank c = false := by
  cases hb : isAsciiBlank c with
  | false => rfl
  | true => exact (isBlank_of_isAsciiBlank hb).symm.trans h

theorem isGap_eq_false {c : Char} (h : isBlank c = false) : isGap c = false := by
  cases hg : isGap c with
  | false => rfl
  | true => exact (isBlank_of_isAsciiBlank (isAsciiBlank_of_isGap hg)).symm.trans h

/-- The quote that a text behind a separator opens, and what stands behind it. -/
def opened? (w : Text) : Option (Char × Text) :=
  match w.dropWhile isGap with
  | [] => none
  | q :: rest => if Value.isQuote q then some (q, rest) else none

/-- A line opens what stands behind its first separator. -/
theorem opening?_separator {indent v : Text} {s : Char}
    (indented : ∀ c ∈ indent, isAsciiBlank c = true)
    (begins : ∀ c, v.head? = some c → isAsciiBlank c = false ∧ c ≠ '#')
    (plain : ∀ c ∈ v, c ≠ '=' ∧ c ≠ ':') (hs : s = '=' ∨ s = ':') (w : Text) :
    opening? (indent ++ (v ++ s :: w)) = opened? w := by
  have isSep : (s != '=' && s != ':') = false := by rcases hs with rfl | rfl <;> rfl
  have noSep : ∀ c ∈ v, (c != '=' && c != ':') = true := by
    intro c hc
    simpa using plain c hc
  have hdrop := (Text.span_append_cons (p := fun d => d != '=' && d != ':') noSep isSep w).2
  -- the line begins with `v`, or with the separator if there is no `v`
  obtain ⟨c, t, hct, hblank, hmark⟩ :
      ∃ c t, v ++ s :: w = c :: t ∧ isAsciiBlank c = false ∧ c ≠ '#' := by
    cases v with
    | nil => rcases hs with rfl | rfl <;> exact ⟨_, w, rfl, by decide, by decide⟩
    | cons c v => exact ⟨c, _, rfl, begins c rfl⟩
  rw [hct] at hdrop
  unfold opening?
  rw [hct, (Text.span_append_cons indented hblank t).2]
  refine (if_neg hmark).trans ?_
  rw [hdrop]
  rfl

/-- An assignment opens the quote of its value. -/
theorem opening?_equals {key : Text} (h : Key.Legible key) (w : Text) :
    opening? (key ++ '=' :: w) = opened? w := by
  refine @opening?_separator [] key '=' (fun c hc => nomatch hc) ?_ ?_ (.inl rfl) w
  · intro c hc
    have hkey := h.isKeyChar (List.mem_of_mem_head? hc)
    exact ⟨isAsciiBlank_eq_false (Assignment.isBlank_of_isKeyChar hkey),
      ne_of_class hkey (by decide)⟩
  · intro c hc
    have hkey := h.isKeyChar hc
    exact ⟨ne_of_class hkey (by decide), ne_of_class hkey (by decide)⟩

/-- It opens the quote that its value begins with. -/
theorem opening?_quoted {key : Text} {q : Char} (h : Key.Legible key) (hq : Value.isQuote q = true)
    (t : Text) : opening? (key ++ ['='] ++ q :: t) = some (q, t) := by
  have stop : isGap q = false := isGap_eq_false (Value.isBlank_of_isQuote hq)
  rw [List.append_assoc, List.singleton_append, opening?_equals h, opened?,
    List.dropWhile_cons_of_neg (by simp [stop])]
  exact if_pos hq

theorem newline_not_mem_equals {key : Text} (h : Key.Legible key) : '\n' ∉ key ++ ['='] := by
  intro hm
  rcases List.mem_append.1 hm with hm | hm
  · exact absurd (h.isKeyChar hm) (by decide)
  · exact absurd hm (by decide)

/-- **What a line opens** is the quote behind its first separator, with spaces
    or tabs between, unless the line begins with a comment marker behind ASCII
    blanks. -/
theorem opening?_eq_some_iff {p u : Text} {q : Char} :
    opening? p = some (q, u) ↔
      (p.dropWhile isAsciiBlank).head? ≠ some '#' ∧ Value.isQuote q = true ∧
        ∃ v s gap, p = v ++ s :: (gap ++ q :: u) ∧ (∀ c ∈ v, c ≠ '=' ∧ c ≠ ':') ∧
          (s = '=' ∨ s = ':') ∧ ∀ c ∈ gap, isGap c = true := by
  constructor
  · intro h
    unfold opening? at h
    split at h
    · cases h
    rename_i c t begins
    split at h
    · cases h
    rename_i unmarked
    split at h
    · cases h
    rename_i q' rest behind
    split at h
    · rename_i quote
      cases h
      cases cut : (c :: t).dropWhile fun d => d != '=' && d != ':' with
      | nil => simp [cut] at behind
      | cons s w =>
        rw [cut, List.tail_cons] at behind
        have separator := List.head?_dropWhile_not (fun d => d != '=' && d != ':') (c :: t)
        rw [cut] at separator
        refine ⟨by simpa [begins] using unmarked, quote,
          p.takeWhile isAsciiBlank ++ (c :: t).takeWhile fun d => d != '=' && d != ':', s,
          w.takeWhile isGap, ?_, ?_, ?_, fun d hd => List.mem_takeWhile_imp hd⟩
        · rw [← behind, List.takeWhile_append_dropWhile, List.append_assoc, ← cut,
            List.takeWhile_append_dropWhile, ← begins, List.takeWhile_append_dropWhile]
        · intro d hd
          rcases List.mem_append.1 hd with hd | hd
          · have blank := List.mem_takeWhile_imp hd
            exact ⟨ne_of_class blank (by decide), ne_of_class blank (by decide)⟩
          · simpa using List.mem_takeWhile_imp hd
        · simpa [Decidable.or_iff_not_imp_left] using separator
    · cases h
  · rintro ⟨unmarked, quote, v, s, gap, rfl, plain, separator, hgap⟩
    have cut : v.takeWhile isAsciiBlank ++ v.dropWhile isAsciiBlank = v :=
      List.takeWhile_append_dropWhile
    have begins : ∀ c, (v.dropWhile isAsciiBlank).head? = some c →
        isAsciiBlank c = false ∧ c ≠ '#' := by
      intro c hc
      have kept := List.head?_dropWhile_not isAsciiBlank v
      rw [hc] at kept
      refine ⟨by simpa using kept, ?_⟩
      rintro rfl
      rw [List.dropWhile_append] at unmarked
      split at unmarked
      · rename_i nothing
        rw [List.isEmpty_iff.1 nothing] at hc
        cases hc
      · rw [List.head?_append, hc] at unmarked
        exact unmarked rfl
    have stop : isGap q = false := isGap_eq_false (Value.isBlank_of_isQuote quote)
    rw [← cut, List.append_assoc, opening?_separator (fun c hc => List.mem_takeWhile_imp hc) begins
      (fun c hc => plain c ((List.dropWhile_sublist _).subset hc)) separator, opened?,
      (Text.span_append_cons hgap stop u).2]
    exact if_pos quote

/-- A line that opens a quote is not blank, and it has a separator. -/
theorem of_opening? {p t : Text} {q : Char} (h : opening? p = some (q, t)) :
    Value.isQuote q = true ∧ p.all isAsciiBlank = false ∧
      ∃ v s rest, p = v ++ s :: rest ∧ (s = '=' ∨ s = ':') := by
  obtain ⟨-, quote, v, s, gap, rfl, -, separator, -⟩ := opening?_eq_some_iff.1 h
  refine ⟨quote, ?_, v, s, _, rfl, separator⟩
  rcases separator with rfl | rfl <;> simp [isAsciiBlank]

theorem stands_assignmentLine {key : Text} (h : Key.Legible key) (v : Text) :
    Stands (Row.assignmentLine key v false) where
  whole := Row.not_mem_assignmentLine h v (.inl rfl)
  closed := by
    intro q t hq
    have hw := Value.written_write v
    have hgap : (Value.write v).dropWhile isGap = Value.write v := by
      apply Text.dropWhile_of_head?
      intro d hd
      exact isGap_eq_false ((Text.strip_eq_self_iff.1 hw.trim).1 d hd)
    rw [Row.assignmentLine_live, opening?_equals h, opened?, hgap] at hq
    generalize Value.write v = w at hq hw
    -- a bare value opens no quote, a quoted one closes the quote that it opens
    cases hw with
    | bare plain =>
      cases w with
      | nil => cases hq
      | cons c w =>
        simp [Value.isQuote_of_isPlain (plain c List.mem_cons_self)] at hq
    | quoted u =>
      have hquote : some ('"', Value.escape u ++ ['"']) = some (q, t) := hq
      cases hquote
      exact Value.closes_escape u []

end EnvFile.Segment
