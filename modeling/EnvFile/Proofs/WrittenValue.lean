import EnvFile.Proofs.Texts
import EnvFile.Segment
import Mathlib.Data.List.Infix

/-! # Written values

    What `Value.write` writes is bare or quoted (`bare_or_quote`), and either
    way it stands on one line, has no blanks around it, and closes every quote
    that it opens.

    Unescaping is not quite the converse of escaping: what comes back between
    quotes is the text but for three pairs of characters (`unescape_escape`).

    A value that is *storable* reads back as it was (`read_write`).  The
    conditions name what gets lost otherwise: blanks and quotes around the
    value, a dollar sign, a backslash before a letter that looks like an
    escape, and the spelling of a number. -/

namespace EnvFile

theorem isBlank_of_isAlphanum {c : Char} (h : c.isAlphanum = true) : isBlank c = false := by
  have hn : ((65 ≤ c.toNat ∧ c.toNat ≤ 90) ∨ (97 ≤ c.toNat ∧ c.toNat ≤ 122)) ∨
      (48 ≤ c.toNat ∧ c.toNat ≤ 57) := by
    rwa [isAlphanum_iff, isUpper_iff, isLower_iff, Char.isDigit_iff_toNat] at h
  simp only [isBlank, Bool.or_eq_false_iff, Bool.and_eq_false_iff, decide_eq_false_iff_not,
    beq_eq_false_iff_ne]
  omega

namespace Value

/-! ## The shape of a written value -/

/-- The characters of truth values and integers. -/
def isPlain (c : Char) : Bool :=
  c.isAlphanum || c == '-'

/-- A written value is bare or quoted. -/
inductive Written : Text → Prop
  | bare {t : Text} (plain : ∀ c ∈ t, isPlain c = true) : Written t
  | quoted (t : Text) : Written (quote t)

theorem isPlain_of_mem_write {n : Int} {c : Char} (h : c ∈ Integer.write n) :
    isPlain c = true := by
  have digit : ∀ d ∈ Nat.toDigits 10 n.natAbs, isPlain d = true := by
    intro d hd
    simp [isPlain, isAlphanum_iff, Integer.isDigit_of_mem_toDigits hd]
  unfold Integer.write at h
  split at h
  · rcases List.mem_cons.1 h with rfl | h
    · rfl
    · exact digit c h
  · exact digit c h

/-- The written values that stand without quotes: nothing, a truth value, an
    integer of the word. -/
inductive Bare : Text → Prop
  | nothing : Bare []
  | yes : Bare "true".toList
  | no : Bare "false".toList
  | integer {n : Int} (least : Integer.least ≤ n) (greatest : n ≤ Integer.greatest) :
      Bare (Integer.write n)

theorem Bare.plain {w : Text} (h : Bare w) : ∀ c ∈ w, isPlain c = true := by
  cases h with
  | nothing => simp
  | yes => exact List.all_eq_true.1 rfl
  | no => exact List.all_eq_true.1 rfl
  | integer => exact fun c hc => isPlain_of_mem_write hc

theorem bare_of_bare? {t u : Text} (h : bare? t = some u) : Bare u := by
  unfold bare? at h
  split at h
  · rename_i word
    cases h
    rcases word with rfl | rfl
    · exact .yes
    · exact .no
  · obtain ⟨n, reads, rfl⟩ := Option.map_eq_some_iff.1 h
    have range := (Option.filter_eq_some_iff.1 reads).2
    simp only [Bool.decide_and, Bool.and_eq_true, decide_eq_true_eq] at range
    exact .integer range.1 range.2

theorem isPlain_of_bare? {t u : Text} (h : bare? t = some u) {c : Char} (hc : c ∈ u) :
    isPlain c = true :=
  (bare_of_bare? h).plain c hc

/-- The text that is quoted for a raw value, unless it is written bare. -/
def body (raw : Text) : Text :=
  (unquote? raw.trim).getD raw.trim

theorem bare_or_quote (raw : Text) : Bare (write raw) ∨ write raw = quote (body raw) := by
  unfold write body
  dsimp only
  split
  · exact .inl .nothing
  · cases unquoted : unquote? raw.trim with
    | some t => exact .inr rfl
    | none =>
      cases bare : bare? raw.trim with
      | some u => exact .inl (bare_of_bare? bare)
      | none => exact .inr rfl

theorem written_write (raw : Text) : Written (write raw) := by
  rcases bare_or_quote raw with bare | quoted
  · exact .bare bare.plain
  · rw [quoted]
    exact .quoted _

/-! ## What a written value does not hold -/

theorem isBlank_of_isPlain {c : Char} (h : isPlain c = true) : isBlank c = false := by
  unfold isPlain at h
  rcases Bool.or_eq_true_iff.1 h with h | h
  · exact isBlank_of_isAlphanum h
  · rw [beq_iff_eq.1 h]
    decide

theorem isQuote_of_isPlain {c : Char} (h : isPlain c = true) : isQuote c = false := by
  have hd : c ≠ '"' := ne_of_class h (by decide)
  have hs : c ≠ '\'' := ne_of_class h (by decide)
  simp [isQuote, hd, hs]

/-- How a character is written between quotes: as an escape of its own, behind
    a backslash, or as it is. -/
inductive Escaped : Char → Text → Prop
  | newline : Escaped '\n' ['\\', 'n']
  | creturn : Escaped '\r' ['\\', 'r']
  | marked {c : Char} (ending : c ≠ '\n' ∧ c ≠ '\r') (letter : c ≠ 'n' ∧ c ≠ 'r') :
      Escaped c ['\\', c]
  | plain {c : Char} (ending : c ≠ '\n' ∧ c ≠ '\r') (special : c ≠ '\\' ∧ c ≠ '"') :
      Escaped c [c]

theorem escaped_escapeChar (c : Char) : Escaped c (escapeChar c) := by
  by_cases hn : c = '\n'
  · subst hn
    exact .newline
  by_cases hr : c = '\r'
  · subst hr
    exact .creturn
  unfold escapeChar
  rw [if_neg (by simpa using hn), if_neg (by simpa using hr)]
  split
  · rename_i hspecial
    -- neither letter is among the characters that get a backslash
    have letter : c ≠ 'n' ∧ c ≠ 'r' := by
      simp only [Bool.or_eq_true, beq_iff_eq] at hspecial
      rcases hspecial with ((rfl | rfl) | rfl) | rfl <;> decide
    exact .marked ⟨hn, hr⟩ letter
  · rename_i hplain
    simp only [Bool.or_eq_true, beq_iff_eq, not_or] at hplain
    exact .plain ⟨hn, hr⟩ hplain.1.1

theorem mem_escapeChar {c d : Char} (h : c ∈ escapeChar d) :
    c = '\\' ∨ c = 'n' ∨ c = 'r' ∨ (c = d ∧ d ≠ '\n' ∧ d ≠ '\r') := by
  have hd := escaped_escapeChar d
  generalize escapeChar d = t at h hd
  cases hd with
  | newline =>
    have hc : c = '\\' ∨ c = 'n' := by simpa using h
    exact hc.imp_right .inl
  | creturn =>
    have hc : c = '\\' ∨ c = 'r' := by simpa using h
    exact hc.imp_right fun hr => .inr (.inl hr)
  | marked ending letter =>
    have hc : c = '\\' ∨ c = d := by simpa using h
    exact hc.imp_right fun he => .inr (.inr ⟨he, ending⟩)
  | plain ending special =>
    have hc : c = d := by simpa using h
    exact .inr (.inr (.inr ⟨hc, ending⟩))

theorem not_mem_escape {t : Text} {c : Char} (h : c = '\n' ∨ c = '\r') : c ∉ escape t := by
  unfold escape
  intro hc
  obtain ⟨d, -, hd⟩ := List.mem_flatMap.1 hc
  rcases mem_escapeChar hd with rfl | rfl | rfl | ⟨rfl, hn, hr⟩
  · exact absurd h (by decide)
  · exact absurd h (by decide)
  · exact absurd h (by decide)
  · exact h.elim hn hr

/-- A written value stands on one line. -/
theorem Written.not_mem {w : Text} (h : Written w) {c : Char} (hc : c = '\n' ∨ c = '\r') :
    c ∉ w := by
  cases h with
  | bare plain =>
    intro hw
    have := plain c hw
    rcases hc with rfl | rfl <;> exact absurd this (by decide)
  | quoted t =>
    have := not_mem_escape (t := t) hc
    unfold quote
    rcases hc with rfl | rfl <;> simpa using this

theorem isBlank_of_isQuote {c : Char} (h : isQuote c = true) : isBlank c = false := by
  simp only [isQuote, Bool.or_eq_true, beq_iff_eq] at h
  rcases h with rfl | rfl <;> decide

/-- There are no blanks around a text in quotes. -/
theorem trim_quoted {q : Char} (h : isQuote q = true) (t : Text) :
    Text.trim (q :: (t ++ [q])) = q :: (t ++ [q]) := by
  apply Text.strip_eq_self_iff.2
  constructor
  · intro c hc
    cases hc
    exact isBlank_of_isQuote h
  · intro c hc
    have : c = q := by simpa [List.getLast?_cons] using hc.symm
    rw [this]
    exact isBlank_of_isQuote h

/-- There are no blanks around a written value. -/
theorem Written.trim {w : Text} (h : Written w) : w.trim = w := by
  cases h with
  | bare plain =>
    apply Text.strip_eq_self_iff.2
    constructor
    · intro c hc
      exact isBlank_of_isPlain (plain c (List.mem_of_mem_head? hc))
    · intro c hc
      exact isBlank_of_isPlain (plain c (List.mem_of_mem_getLast? hc))
  | quoted t => exact trim_quoted rfl _

/-! ## Quotes close -/

theorem closes_escapeChar (c : Char) (rest : Text) :
    Segment.closes '"' false (escapeChar c ++ rest) = Segment.closes '"' false rest := by
  -- an escaped pair is passed over; any other character is not the quote
  have pair : ∀ d, Segment.closes '"' false ('\\' :: d :: rest) = Segment.closes '"' false rest := by
    intro d
    simp [Segment.closes]
  have hc := escaped_escapeChar c
  generalize escapeChar c = t at hc ⊢
  cases hc with
  | newline => exact pair 'n'
  | creturn => exact pair 'r'
  | marked ending letter => exact pair c
  | plain ending special =>
    have hs : (c == '\\') = false := by simpa using special.1
    have hq : (c == '"') = false := by simpa using special.2
    simp [Segment.closes, hs, hq]

theorem closes_escape (t rest : Text) :
    Segment.closes '"' false (escape t ++ '"' :: rest) = true := by
  unfold escape
  induction t with
  | nil => simp [Segment.closes]
  | cons c t ih =>
    rw [List.flatMap_cons, List.append_assoc, closes_escapeChar]
    exact ih

/-! ## Escapes resolve -/

/-- A character stays that is no backslash, or has no such letter behind it. -/
theorem resolve_cons {letter meaning c : Char} {t : Text}
    (h : c ≠ '\\' ∨ t.head? ≠ some letter) :
    resolve letter meaning (c :: t) = c :: resolve letter meaning t := by
  cases t with
  | nil => rfl
  | cons d t =>
    have hcd : (c == '\\' && d == letter) = false := by
      rcases h with h | h
      · simp [h]
      · have hd : d ≠ letter := by simpa using h
        simp [hd]
    rw [resolve, hcd]
    simp

theorem resolve_pair (letter meaning : Char) (t : Text) :
    resolve letter meaning ('\\' :: letter :: t) = meaning :: resolve letter meaning t := by
  simp [resolve]

/-- Resolving letters puts nothing but `meaning` in front. -/
theorem head?_resolve {letter meaning x : Char} (hx : x ≠ meaning) {t : Text}
    (h : t.head? ≠ some x) : (resolve letter meaning t).head? ≠ some x := by
  cases t with
  | nil => exact h
  | cons c t =>
    by_cases pair : c = '\\' ∧ t.head? = some letter
    · obtain ⟨rfl, hl⟩ := pair
      obtain ⟨u, rfl⟩ := List.head?_eq_some_iff.1 hl
      rw [resolve_pair]
      simpa using Ne.symm hx
    · rw [resolve_cons (Decidable.not_and_iff_or_not.1 pair)]
      simpa using h

theorem dropBackslashes_cons {c : Char} (h : c ≠ '\\') (t : Text) :
    dropBackslashes (c :: t) = c :: dropBackslashes t := by
  cases t with
  | nil => rfl
  | cons d t => simp [dropBackslashes, h]

theorem dropBackslashes_pair {c : Char} (h : c ≠ '$') (t : Text) :
    dropBackslashes ('\\' :: c :: t) = c :: dropBackslashes t := by
  simp [dropBackslashes, h]

/-- What is written for a text begins with a backslash or as the text does. -/
theorem head?_escape {x : Char} (hx : x ≠ '\\') {t : Text} (h : t.head? ≠ some x) :
    (escape t).head? ≠ some x := by
  cases t with
  | nil => exact h
  | cons c t =>
    show (escapeChar c ++ escape t).head? ≠ some x
    have hc := escaped_escapeChar c
    generalize escapeChar c = u at hc ⊢
    cases hc with
    | plain ending special => simpa using h
    | _ => simpa using Ne.symm hx

/-- What comes back for a text that stood between double quotes.  A backslash
    and the letter of a line ending have become the line ending, and a dollar
    sign has the backslash that it was written with. -/
def returned : Text → Text
  | '\\' :: 'n' :: t => '\n' :: returned t
  | '\\' :: 'r' :: t => '\r' :: returned t
  | '$' :: t => '\\' :: '$' :: returned t
  | c :: t => c :: returned t
  | [] => []

/-- **What escaping and unescaping leave of a text.** -/
theorem unescape_escape (t : Text) : unescape (escape t) = returned t := by
  unfold unescape
  fun_induction returned t with
  | case1 t ih =>
    -- of the three characters written the last two are taken for a line feed
    show dropBackslashes (resolve 'r' '\r' (resolve 'n' '\n' ('\\' :: '\\' :: 'n' :: escape t))) = _
    simp [resolve_cons, resolve_pair, dropBackslashes_pair, ih]
  | case2 t ih =>
    show dropBackslashes (resolve 'r' '\r' (resolve 'n' '\n' ('\\' :: '\\' :: 'r' :: escape t))) = _
    simp [resolve_cons, resolve_pair, dropBackslashes_pair, ih]
  | case3 t ih =>
    show dropBackslashes (resolve 'r' '\r' (resolve 'n' '\n' ('\\' :: '$' :: escape t))) = _
    simp [resolve_cons, dropBackslashes, ih]
  | case4 c t notN notR notDollar ih =>
    show dropBackslashes (resolve 'r' '\r' (resolve 'n' '\n' (escapeChar c ++ escape t))) = _
    have hc := escaped_escapeChar c
    generalize escapeChar c = u at hc ⊢
    cases hc with
    | newline => simp [resolve_cons, resolve_pair, dropBackslashes_cons, ih]
    | creturn => simp [resolve_cons, resolve_pair, dropBackslashes_cons, ih]
    | marked ending letter =>
      -- a backslash written for a backslash meets what is written for the rest
      have first : c ≠ '\\' ∨ (escape t).head? ≠ some 'n' := by
        refine Decidable.or_iff_not_imp_left.2 fun slash => head?_escape (by decide) fun hn => ?_
        obtain ⟨u, rfl⟩ := List.head?_eq_some_iff.1 hn
        exact notN u (Decidable.not_not.1 slash) rfl
      have second : c ≠ '\\' ∨ (resolve 'n' '\n' (escape t)).head? ≠ some 'r' := by
        refine Decidable.or_iff_not_imp_left.2 fun slash =>
          head?_resolve (by decide) (head?_escape (by decide) fun hr => ?_)
        obtain ⟨u, rfl⟩ := List.head?_eq_some_iff.1 hr
        exact notR u (Decidable.not_not.1 slash) rfl
      show dropBackslashes (resolve 'r' '\r' (resolve 'n' '\n' ('\\' :: c :: escape t))) = _
      rw [resolve_cons (.inr (by simpa using letter.1)), resolve_cons first,
        resolve_cons (.inr (by simpa using letter.2)), resolve_cons second,
        dropBackslashes_pair notDollar, ih]
    | plain ending special =>
      simp [resolve_cons, dropBackslashes_cons, special.1, ih]
  | case5 => rfl

/-- A text without such pairs and without dollar signs comes back as it was. -/
theorem returned_eq_self {t : Text} (dollar : '$' ∉ t) (newline : ¬ ['\\', 'n'] <:+: t)
    (creturn : ¬ ['\\', 'r'] <:+: t) : returned t = t := by
  fun_induction returned t with
  | case1 t ih => exact absurd (List.prefix_append ['\\', 'n'] t).isInfix newline
  | case2 t ih => exact absurd (List.prefix_append ['\\', 'r'] t).isInfix creturn
  | case3 t ih => exact absurd List.mem_cons_self dollar
  | case4 c t notN notR notDollar ih =>
    have rest : t <:+: c :: t := (List.suffix_cons c t).isInfix
    rw [ih (fun h => dollar (List.mem_cons_of_mem c h)) (fun h => newline (h.trans rest))
      fun h => creturn (h.trans rest)]
  | case5 => rfl

/-! ## What reads back -/

/-- A value that a file keeps as it is. -/
structure Storable (v : Text) : Prop where
  trimmed : v.trim = v
  unquoted : unquote? v = none
  dollar : '$' ∉ v
  newline : ¬ ['\\', 'n'] <:+: v
  creturn : ¬ ['\\', 'r'] <:+: v
  canonical : ∀ n, Integer.read? v = some n → Integer.write n = v

instance (v : Text) : Decidable (Storable v) :=
  decidable_of_iff
    (v.trim = v ∧ unquote? v = none ∧ '$' ∉ v ∧ ¬ ['\\', 'n'] <:+: v ∧ ¬ ['\\', 'r'] <:+: v ∧
      ∀ n ∈ Integer.read? v, Integer.write n = v)
    ⟨fun ⟨h₁, h₂, h₃, h₄, h₅, h₆⟩ => ⟨h₁, h₂, h₃, h₄, h₅, h₆⟩,
      fun ⟨h₁, h₂, h₃, h₄, h₅, h₆⟩ => ⟨h₁, h₂, h₃, h₄, h₅, h₆⟩⟩

/-- Plain characters are no quotes, so there are none to take off. -/
theorem unquote?_of_plain {t : Text} (plain : ∀ c ∈ t, isPlain c = true) : unquote? t = none := by
  cases t with
  | nil => rfl
  | cons q t => simp [unquote?, isQuote_of_isPlain (plain q List.mem_cons_self)]

/-- A bare value stands for itself. -/
theorem read_of_plain {t : Text} (plain : ∀ c ∈ t, isPlain c = true) : read t = t := by
  have hh : t.head? ≠ some '"' := by
    intro h
    exact absurd (plain _ (List.mem_of_mem_head? h)) (by decide)
  simp [read, unquote?_of_plain plain, hh]

theorem read_quote (t : Text) : read (quote t) = returned t := by
  have hu : unquote? (quote t) = some (escape t) := unquote?_quoted rfl _
  unfold read
  rw [hu]
  exact unescape_escape t

/-- **A storable value reads back as it was.** -/
theorem Storable.read_write {v : Text} (h : Storable v) : read (write v) = v := by
  simp only [write, h.trimmed, h.unquoted]
  split
  · rename_i hv
    rw [List.isEmpty_iff.1 hv]
    rfl
  · have bare : ∀ u, bare? v = some u → u = v := by
      intro u hu
      unfold bare? at hu
      split at hu
      · cases hu
        rfl
      · obtain ⟨n, hn, rfl⟩ := Option.map_eq_some_iff.1 hu
        exact h.canonical n hn
    cases hb : bare? v with
    | none => exact (read_quote v).trans (returned_eq_self h.dollar h.newline h.creturn)
    | some u =>
      obtain rfl := bare u hb
      exact read_of_plain fun c hc => isPlain_of_bare? hb hc

end Value

end EnvFile
