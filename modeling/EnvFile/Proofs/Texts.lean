import EnvFile.Segment
import EnvFile.Statement.Basic
import Mathlib.Data.List.DropRight

/-! # Ends and lines of texts

    A trimmed text is what is left between a beginning and an end of dropped
    characters (`exists_strip`).  So a text is trimmed already exactly if its
    two ends are kept (`strip_eq_self_iff`), and trimming before trimming more
    makes no difference (`strip_strip_of_imp`).

    The characters of the lines of a text are those of the text, line feeds
    excepted (`mem_of_mem_lines`, `mem_joinLines`).  Texts that are put one
    below the other keep their lines (`lines_append`, `lines_joinLines_texts`),
    and joining what was joined before is joining once
    (`joinNonempty_append`). -/

namespace EnvFile

/-- Characters that a class tells apart are not the same. -/
theorem ne_of_class {p : Char → Bool} {c d : Char} (hc : p c = true) (hd : p d = false) :
    c ≠ d := by
  intro h
  rw [h, hd] at hc
  cases hc

/-! ## Letters and digits -/

theorem isUpper_iff {c : Char} : c.isUpper = true ↔ 65 ≤ c.toNat ∧ c.toNat ≤ 90 := by
  show decide ('A'.val ≤ c.val ∧ c.val ≤ 'Z'.val) = true ↔ _
  rw [decide_eq_true_iff, UInt32.le_iff_toNat_le, UInt32.le_iff_toNat_le]
  rfl

theorem isLower_iff {c : Char} : c.isLower = true ↔ 97 ≤ c.toNat ∧ c.toNat ≤ 122 := by
  show (decide ('a'.val ≤ c.val) && decide (c.val ≤ 'z'.val)) = true ↔ _
  rw [Bool.and_eq_true, decide_eq_true_iff, decide_eq_true_iff, UInt32.le_iff_toNat_le,
    UInt32.le_iff_toNat_le]
  rfl

theorem isAlphanum_iff {c : Char} :
    c.isAlphanum = true ↔ (c.isUpper = true ∨ c.isLower = true) ∨ c.isDigit = true := by
  show (c.isUpper || c.isLower || c.isDigit) = true ↔ _
  rw [Bool.or_eq_true, Bool.or_eq_true]

namespace Text

variable {p q : Char → Bool} {t : Text}

/-- Characters are dropped from the two ends only. -/
theorem exists_strip (p : Char → Bool) (t : Text) :
    ∃ pre post, t = pre ++ strip p t ++ post ∧
      (∀ c ∈ pre, p c = true) ∧ (∀ c ∈ post, p c = true) := by
  refine ⟨t.takeWhile p, (t.dropWhile p).rtakeWhile p, ?_, ?_, ?_⟩
  · have right : strip p t ++ (t.dropWhile p).rtakeWhile p = t.dropWhile p :=
      List.rdropWhile_append_rtakeWhile
    rw [List.append_assoc, right, List.takeWhile_append_dropWhile]
  · intro c hc
    exact List.mem_takeWhile_imp hc
  · intro c hc
    exact List.mem_rtakeWhile_imp hc

theorem mem_of_mem_strip {c : Char} (h : c ∈ strip p t) : c ∈ t := by
  obtain ⟨pre, post, ht, -, -⟩ := exists_strip p t
  rw [ht]
  simp [h]

theorem strip_append_left {pre : Text} (h : ∀ c ∈ pre, p c = true) (t : Text) :
    strip p (pre ++ t) = strip p t := by
  unfold strip
  rw [List.dropWhile_append_of_pos h]

theorem trimRight_append_right {post : Text} (h : ∀ c ∈ post, p c = true) (t : Text) :
    trimRight p (t ++ post) = trimRight p t := by
  unfold trimRight
  rw [List.reverse_append, List.dropWhile_append_of_pos (by simpa using h)]

theorem strip_append_right {post : Text} (h : ∀ c ∈ post, p c = true) (t : Text) :
    strip p (t ++ post) = strip p t := by
  unfold strip
  rw [List.dropWhile_append]
  by_cases ht : (t.dropWhile p).isEmpty = true
  · -- nothing is left of `t`, and nothing of what stands behind it
    have hnil : post.dropWhile p = [] := List.dropWhile_eq_nil_iff.2 h
    rw [if_pos ht, hnil, List.isEmpty_iff.1 ht]
  · rw [if_neg ht, trimRight_append_right h]

theorem trimRight_prefix (p : Char → Bool) (t : Text) : trimRight p t <+: t :=
  List.rdropWhile_prefix p t

theorem strip_trimRight (p : Char → Bool) (t : Text) : strip p (trimRight p t) = strip p t := by
  have hsplit : trimRight p t ++ t.rtakeWhile p = t := List.rdropWhile_append_rtakeWhile
  have hright : ∀ c ∈ t.rtakeWhile p, p c = true := fun c hc => List.mem_rtakeWhile_imp hc
  have := strip_append_right hright (trimRight p t)
  rw [hsplit] at this
  exact this.symm

/-- Trimming less before trimming more makes no difference. -/
theorem strip_strip_of_imp (h : ∀ c, p c = true → q c = true) (t : Text) :
    strip q (strip p t) = strip q t := by
  obtain ⟨pre, post, ht, hpre, hpost⟩ := exists_strip p t
  have hq : strip q (pre ++ strip p t ++ post) = strip q (strip p t) := by
    rw [strip_append_right (fun c hc => h c (hpost c hc)),
      strip_append_left (fun c hc => h c (hpre c hc))]
  rw [← ht] at hq
  exact hq.symm

theorem trim_trim (t : Text) : t.trim.trim = t.trim :=
  strip_strip_of_imp (fun _ h => h) t

/-! ## Characters that stay -/

/-- The first character is dropped only if all behind it are. -/
theorem trimRight_cons (p : Char → Bool) (c : Char) (t : Text) :
    trimRight p (c :: t) =
      if trimRight p t = [] ∧ p c = true then [] else c :: trimRight p t := by
  unfold trimRight
  rw [List.reverse_cons, List.dropWhile_append]
  by_cases ht : t.reverse.dropWhile p = []
  · cases hc : p c <;> simp [ht, hc]
  · simp [ht]

/-- A kept character stops the trimming from the right. -/
theorem trimRight_append_cons {c : Char} (h : p c = false) (u t : Text) :
    trimRight p (u ++ c :: t) = u ++ c :: trimRight p t := by
  induction u with
  | nil =>
    rw [List.nil_append, trimRight_cons, if_neg (by simp [h])]
    rfl
  | cons d u ih =>
    rw [List.cons_append, trimRight_cons, ih, if_neg (by simp), List.cons_append]

/-- A text that begins with a kept character still begins with it. -/
theorem strip_cons {c : Char} (h : p c = false) (t : Text) :
    strip p (c :: t) = c :: trimRight p t := by
  unfold strip
  rw [List.dropWhile_cons_of_neg (by simp [h])]
  exact trimRight_append_cons h [] t

theorem head?_strip_eq (p : Char → Bool) (t : Text) :
    (strip p t).head? = (t.dropWhile p).head? := by
  have kept := List.head?_dropWhile_not p t
  unfold strip
  cases h : t.dropWhile p with
  | nil => rfl
  | cons c u =>
    rw [h] at kept
    rw [trimRight_cons, if_neg (by simpa using fun _ => kept)]
    rfl

/-! ## Trimmed already -/

theorem head?_strip {c : Char} (h : (strip p t).head? = some c) : p c = false := by
  have kept := List.head?_dropWhile_not p t
  rw [← head?_strip_eq, h] at kept
  simpa using kept

theorem getLast?_strip {c : Char} (h : (strip p t).getLast? = some c) : p c = false := by
  unfold strip trimRight at h
  rw [List.getLast?_reverse] at h
  have := List.head?_dropWhile_not p (t.dropWhile p).reverse
  rw [h] at this
  simpa using this

/-- Characters of a class end where one of another follows. -/
theorem span_append_cons {c : Char} (h : ∀ d ∈ t, p d = true) (hc : p c = false) (u : Text) :
    (t ++ c :: u).takeWhile p = t ∧ (t ++ c :: u).dropWhile p = c :: u := by
  rw [List.takeWhile_append_of_pos h, List.dropWhile_append_of_pos h,
    List.takeWhile_cons_of_neg (by simp [hc]), List.dropWhile_cons_of_neg (by simp [hc]),
    List.append_nil]
  exact ⟨rfl, rfl⟩

theorem dropWhile_of_head? (h : ∀ c, t.head? = some c → p c = false) : t.dropWhile p = t := by
  cases t with
  | nil => rfl
  | cons c t => exact List.dropWhile_cons_of_neg (by simp [h c rfl])

/-- A text is trimmed exactly if its two ends are kept. -/
theorem strip_eq_self_iff :
    strip p t = t ↔
      (∀ c, t.head? = some c → p c = false) ∧ (∀ c, t.getLast? = some c → p c = false) := by
  constructor
  · intro h
    constructor
    · intro c hc
      rw [← h] at hc
      exact head?_strip hc
    · intro c hc
      rw [← h] at hc
      exact getLast?_strip hc
  · rintro ⟨hhead, hlast⟩
    have hrev : t.reverse.dropWhile p = t.reverse :=
      dropWhile_of_head? (by simpa using hlast)
    unfold strip trimRight
    rw [dropWhile_of_head? hhead, hrev, List.reverse_reverse]

theorem trimRight_of_strip (h : strip p t = t) : trimRight p t = t := by
  unfold strip at h
  rwa [dropWhile_of_head? (strip_eq_self_iff.1 h).1] at h

theorem dropWhile_trimRight (p : Char → Bool) (t : Text) :
    (trimRight p t).dropWhile p = strip p t := by
  induction t with
  | nil => rfl
  | cons c t ih =>
    cases hc : p c with
    | true =>
      have skip (u : Text) : (c :: u).dropWhile p = u.dropWhile p := List.dropWhile_cons_of_pos hc
      have strip_skip : strip p (c :: t) = strip p t := congrArg (trimRight p) (skip t)
      rw [trimRight_cons, strip_skip, ← ih]
      split
      · rename_i nothing
        rw [nothing.1]
      · exact skip _
    | false =>
      rw [strip_cons hc, trimRight_cons, if_neg (by simp [hc])]
      exact List.dropWhile_cons_of_neg (by simp [hc])

/-- A text begins with a run of characters of a class, and then ends or goes on
    with another character. -/
theorem exists_run (p : Char → Bool) (t : Text) :
    ∃ run, (∀ c ∈ run, p c = true) ∧ (t = run ∨ ∃ c rest, t = run ++ c :: rest ∧ p c = false) := by
  refine ⟨t.takeWhile p, fun c hc => List.mem_takeWhile_imp hc, ?_⟩
  have cut : t.takeWhile p ++ t.dropWhile p = t := List.takeWhile_append_dropWhile
  have kept := List.head?_dropWhile_not p t
  cases h : t.dropWhile p with
  | nil =>
    rw [h, List.append_nil] at cut
    exact .inl cut.symm
  | cons c rest =>
    rw [h] at cut kept
    exact .inr ⟨c, rest, cut.symm, by simpa using kept⟩

/-! ## Lines -/

theorem lines_of_not_mem {t : Text} (h : '\n' ∉ t) : lines t = [t] := by
  have := lines_joinLines (show ∀ l ∈ [t], '\n' ∉ l by simpa using h) (by simp)
  simpa using this

theorem joinLines_ne_nil {ls : List Text} (h : ∀ l ∈ ls, l ≠ []) (ne : ls ≠ []) :
    joinLines ls ≠ [] := by
  cases ls with
  | nil => exact absurd rfl ne
  | cons l ls =>
    have hl := h l List.mem_cons_self
    cases ls with
    | nil => simpa using hl
    | cons m ls => simp

theorem lines_ne_nil (t : Text) : lines t ≠ [] :=
  List.splitOnP_ne_nil _ t

/-- A line feed in front opens a line of its own. -/
theorem lines_newline (t : Text) : lines ('\n' :: t) = [] :: lines t := by
  unfold lines List.splitOn
  rw [List.splitOnP_cons_eq_if_modifyHead, if_pos (by rfl)]

/-- Any other character joins the first line. -/
theorem lines_cons {c : Char} (h : c ≠ '\n') (t : Text) :
    lines (c :: t) = (lines t).modifyHead (List.cons c) := by
  unfold lines List.splitOn
  rw [List.splitOnP_cons_eq_if_modifyHead, if_neg (by simpa using h)]

/-- The first line of a text begins as the text does. -/
theorem exists_lines_cons {c : Char} (h : c ≠ '\n') (t : Text) :
    ∃ l, lines (c :: t) = (c :: l) :: (lines t).tail := by
  obtain ⟨m, ms, hm⟩ := List.exists_cons_of_ne_nil (lines_ne_nil t)
  exact ⟨m, by rw [lines_cons h, hm, List.modifyHead_cons, List.tail_cons]⟩

/-- The lines of a text hold its characters, line feeds excepted. -/
theorem mem_of_mem_lines {t l : Text} (h : l ∈ lines t) {c : Char} (hc : c ∈ l) :
    c ≠ '\n' ∧ c ∈ t := by
  induction t generalizing l with
  | nil =>
    have hl : l = [] := by simpa [lines] using h
    rw [hl] at hc
    cases hc
  | cons d t ih =>
    by_cases hd : d = '\n'
    · rw [hd, lines_newline] at h
      rcases List.mem_cons.1 h with rfl | h
      · cases hc
      · exact (ih h hc).imp_right (List.mem_cons_of_mem d)
    · obtain ⟨m, ms, hlines⟩ := List.exists_cons_of_ne_nil (lines_ne_nil t)
      rw [lines_cons hd, hlines, List.modifyHead_cons] at h
      rcases List.mem_cons.1 h with rfl | h
      · rcases List.mem_cons.1 hc with rfl | hc
        · exact ⟨hd, List.mem_cons_self⟩
        · exact (ih (hlines ▸ List.mem_cons_self) hc).imp_right (List.mem_cons_of_mem d)
      · exact (ih (hlines ▸ List.mem_cons_of_mem m h) hc).imp_right (List.mem_cons_of_mem d)

/-- A line feed between two texts ends the last line of the first. -/
theorem lines_append (x y : Text) : lines (x ++ '\n' :: y) = lines x ++ lines y := by
  have whole : ∀ l ∈ lines x ++ lines y, '\n' ∉ l := by
    intro l hl hn
    rcases List.mem_append.1 hl with hl | hl
    · exact (mem_of_mem_lines hl hn).1 rfl
    · exact (mem_of_mem_lines hl hn).1 rfl
  have join := Segment.joinLines_append (lines_ne_nil x) (lines_ne_nil y)
  rw [joinLines_lines, joinLines_lines] at join
  rw [← join, lines_joinLines whole (by simp [lines_ne_nil])]

theorem lines_joinLines_cons (t : Text) {ts : List Text} (h : ts ≠ []) :
    lines (joinLines (t :: ts)) = lines t ++ lines (joinLines ts) := by
  have join := Segment.joinLines_append (List.cons_ne_nil t []) h
  rw [joinLines_singleton, List.singleton_append] at join
  rw [join, lines_append]

/-- What is put in front of lines is put in front of the first. -/
theorem append_joinLines_cons (u l : Text) (ls : List Text) :
    u ++ joinLines (l :: ls) = joinLines ((u ++ l) :: ls) := by
  cases ls with
  | nil => simp
  | cons m ls => simp

/-- What is put behind lines is put behind the last. -/
theorem joinLines_concat_append (ls : List Text) (l u : Text) :
    joinLines (ls ++ [l]) ++ u = joinLines (ls ++ [l ++ u]) := by
  by_cases h : ls = []
  · simp [h]
  · rw [Segment.joinLines_append h (by simp), Segment.joinLines_append h (by simp)]
    simp

/-- A text with a line feed has a first and a last line. -/
theorem exists_lines_of_mem {t : Text} (h : '\n' ∈ t) :
    ∃ first mid last, t.lines = first :: (mid ++ [last]) := by
  obtain ⟨first, later, lines⟩ := List.exists_cons_of_ne_nil (lines_ne_nil t)
  have more : later ≠ [] := by
    rintro rfl
    have one : t = first := by rw [← joinLines_lines t, lines, joinLines_singleton]
    have line : first ∈ t.lines := lines ▸ List.mem_cons_self
    exact (mem_of_mem_lines line (one ▸ h)).1 rfl
  obtain ⟨mid, last, rfl⟩ := (List.eq_nil_or_concat' later).resolve_left more
  exact ⟨first, mid, last, lines⟩

/-- The last line of a text goes on with the first line of what stands behind
    it. -/
theorem lines_append_lines {t u first last : Text} {above below : List Text}
    (ht : t.lines = above ++ [last]) (hu : u.lines = first :: below) :
    (t ++ u).lines = above ++ (last ++ first) :: below := by
  have whole : ∀ l ∈ above ++ (last ++ first) :: below, '\n' ∉ l := by
    have front : ∀ l ∈ above ++ [last], '\n' ∉ l :=
      fun l hl hn => (mem_of_mem_lines (ht ▸ hl) hn).1 rfl
    have behind : ∀ l ∈ first :: below, '\n' ∉ l :=
      fun l hl hn => (mem_of_mem_lines (hu ▸ hl) hn).1 rfl
    simpa [or_imp, forall_and, and_assoc] using And.intro front behind
  have text : t ++ u = joinLines (above ++ (last ++ first) :: below) := by
    rw [← joinLines_lines t, ← joinLines_lines u, ht, hu, joinLines_concat_append,
      append_joinLines_cons]
    by_cases none : above = []
    · simp [none]
    · rw [Segment.joinLines_append none (by simp), Segment.joinLines_append none (by simp),
        joinLines_singleton]
  rw [text, lines_joinLines whole (by simp)]

theorem lines_append_line {t u first : Text} {below : List Text} (line : '\n' ∉ t)
    (hu : u.lines = first :: below) : (t ++ u).lines = (t ++ first) :: below :=
  @lines_append_lines t u first t [] below (lines_of_not_mem line) hu

/-- What stands around a text of several lines stands on its first and on its
    last line. -/
theorem lines_wrap {u t w first last : Text} {mid : List Text} (hu : '\n' ∉ u) (hw : '\n' ∉ w)
    (h : t.lines = first :: (mid ++ [last])) :
    (u ++ t ++ w).lines = (u ++ first) :: (mid ++ [last ++ w]) := by
  have front : (u ++ t).lines = (u ++ first) :: mid ++ [last] :=
    lines_append_line hu h
  exact lines_append_lines front (lines_of_not_mem hw)

/-- The lines of joined texts are those of the texts. -/
theorem lines_joinLines_texts {ts : List Text} (h : ts ≠ []) :
    (joinLines ts).lines = ts.flatMap lines := by
  induction ts with
  | nil => exact absurd rfl h
  | cons t ts ih =>
    by_cases ht : ts = []
    · simp [ht]
    · rw [lines_joinLines_cons t ht, ih ht, List.flatMap_cons]

/-- The last line of a text that does not end in a line feed is not empty. -/
theorem getLast?_lines_concat {c : Char} (h : c ≠ '\n') (t : Text) :
    (lines (t ++ [c])).getLast? ≠ some [] := by
  intro last
  obtain ⟨ls, lines⟩ := List.getLast?_eq_some_iff.1 last
  have text : t ++ [c] = joinLines (ls ++ [[]]) := by rw [← lines, joinLines_lines]
  by_cases hls : ls = []
  · simp [hls] at text
  · rw [Segment.joinLines_append hls (by simp), joinLines_singleton] at text
    obtain ⟨-, e⟩ := List.append_inj' text rfl
    exact h (List.singleton_inj.1 e)

theorem mem_joinLines {ls : List Text} {c : Char} (h : c ∈ joinLines ls) :
    c = '\n' ∨ ∃ l ∈ ls, c ∈ l := by
  induction ls with
  | nil => cases h
  | cons l ls ih =>
    cases ls with
    | nil => exact .inr ⟨l, by simp, by simpa using h⟩
    | cons m ls =>
      rw [joinLines_cons_cons, List.mem_append, List.mem_cons] at h
      rcases h with h | h | h
      · exact .inr ⟨l, by simp, h⟩
      · exact .inl h
      · obtain h | ⟨k, hk, hc⟩ := ih h
        · exact .inl h
        · exact .inr ⟨k, List.mem_cons_of_mem l hk, hc⟩

theorem not_mem_joinLines {ls : List Text} {c : Char} (hc : c ≠ '\n') (h : ∀ l ∈ ls, c ∉ l) :
    c ∉ joinLines ls := by
  intro hm
  rcases mem_joinLines hm with hn | ⟨l, hl, hcl⟩
  · exact hc hn
  · exact h l hl hcl

/-! ## Joining what is not empty -/

theorem joinNonempty_singleton (t : Text) : joinNonempty [t] = t := by
  unfold joinNonempty
  cases t <;> simp

theorem joinNonempty_concat_nil (ts : List Text) :
    joinNonempty (ts ++ [[]]) = joinNonempty ts := by
  have none : [([] : Text)].filter (fun t => !t.isEmpty) = [] := rfl
  unfold joinNonempty
  rw [List.filter_append, none, List.append_nil]

/-- Joining twice is joining once: what is joined is empty only if nothing
    but empty texts were joined. -/
theorem joinNonempty_append (ts us : List Text) :
    joinNonempty [joinNonempty ts, joinNonempty us] = joinNonempty (ts ++ us) := by
  have full (ts : List Text) : ∀ t ∈ ts.filter (fun t => !t.isEmpty), t ≠ [] := by
    intro t ht
    simpa using (List.mem_filter.1 ht).2
  have hts := full ts
  have hus := full us
  unfold joinNonempty
  rw [List.filter_append]
  generalize ts.filter (fun t => !t.isEmpty) = ts at hts ⊢
  generalize us.filter (fun t => !t.isEmpty) = us at hus ⊢
  by_cases ht : ts = []
  · rw [ht, List.nil_append]
    cases joinLines us <;> simp
  · by_cases hu : us = []
    · rw [hu, List.append_nil]
      cases joinLines ts <;> simp
    · have left : joinLines ts ≠ [] := joinLines_ne_nil hts ht
      have right : joinLines us ≠ [] := joinLines_ne_nil hus hu
      rw [Segment.joinLines_append ht hu]
      simp [left, right]

end Text

/-- Blanks around a line do not count among its markers. -/
theorem Statement.stripMarkers_trim (t : Text) : stripMarkers t.trim = stripMarkers t := by
  apply Text.strip_strip_of_imp
  intro c hc
  simp [hc]

end EnvFile
