import EnvFile.Proofs.EncodedText
import EnvFile.Proofs.WrittenValue

/-! # Values that are written twice

    Writing is meant for raw values.  A value that is written already comes out
    of it as it went in exactly if it stands bare, or has nothing between its
    quotes that is escaped.  Any other grows with each further time: the
    backslashes of its escapes are escaped themselves.

    * `Value.sum_escape`: every special character costs one more.
    * `Value.write_write_eq_iff`: what writing leaves alone. -/

namespace EnvFile.Value

/-! ## What is written again -/

/-- The characters that are escaped between double quotes. -/
def isSpecial (c : Char) : Bool :=
  c == '\\' || c == '\n' || c == '\r' || c == '"' || c == '$' || c == '\x60'

theorem Bare.bare? {w : Text} (h : Bare w) (ne : w ≠ []) : Value.bare? w = some w := by
  unfold Value.bare?
  split
  · rfl
  · rename_i word
    cases h with
    | nothing => exact absurd rfl ne
    | yes => exact absurd (.inl rfl) word
    | no => exact absurd (.inr rfl) word
    | integer least greatest => rw [Integer.read?_write least greatest, Option.map_some]

/-- What stands bare is written as it is. -/
theorem Bare.write_eq {w : Text} (h : Bare w) : write w = w := by
  by_cases empty : w = []
  · rw [empty]
    rfl
  · simp [write, (Written.bare h.plain).trim, empty, unquote?_of_plain h.plain, h.bare? empty]

/-- What stands in quotes is escaped once more. -/
theorem write_quote (t : Text) : write (quote t) = quote (escape t) := by
  have unquoted : unquote? (quote t) = some (escape t) := unquote?_quoted rfl _
  simp only [write, (Written.quoted t).trim, unquoted]
  rfl

/-! ## What escaping costs -/

theorem escapeChar_plain {c : Char} (h : isSpecial c = false) : escapeChar c = [c] := by
  simp only [isSpecial, Bool.or_eq_false_iff, beq_eq_false_iff_ne] at h
  obtain ⟨⟨⟨⟨⟨backslash, newline⟩, creturn⟩, quote⟩, dollar⟩, tick⟩ := h
  simp [escapeChar, newline, creturn, backslash, quote, dollar, tick]

/-- A special character is written as a backslash and an ASCII character. -/
theorem escapeChar_special {c : Char} (h : isSpecial c = true) :
    c.toNat < 128 ∧ ∃ d, escapeChar c = ['\\', d] ∧ d.toNat < 128 := by
  simp only [isSpecial, Bool.or_eq_true, beq_iff_eq] at h
  rcases h with ((((rfl | rfl) | rfl) | rfl) | rfl) | rfl <;>
    exact ⟨by decide, _, rfl, by decide⟩

theorem escape_cons (c : Char) (t : Text) : escape (c :: t) = escapeChar c ++ escape t := rfl

/-- A text without special characters is written as it is. -/
theorem escape_of_plain {t : Text} (h : ∀ c ∈ t, isSpecial c = false) : escape t = t := by
  induction t with
  | nil => rfl
  | cons c t ih =>
    rw [List.forall_mem_cons] at h
    rw [escape_cons, escapeChar_plain h.1, ih h.2, List.singleton_append]

/-- What is written for a special character is special in its turn. -/
theorem exists_special_escape {t : Text} (h : ∃ c ∈ t, isSpecial c = true) :
    ∃ c ∈ escape t, isSpecial c = true := by
  obtain ⟨c, hc, special⟩ := h
  obtain ⟨-, d, written, -⟩ := escapeChar_special special
  exact ⟨'\\', List.mem_flatMap.2 ⟨c, hc, by simp [written]⟩, rfl⟩

/-- Every special character costs one more, whatever texts are measured in, as
    long as ASCII characters count one each. -/
theorem sum_escape {size : Char → Nat} (ascii : ∀ c, c.toNat < 128 → size c = 1) (t : Text) :
    ((escape t).map size).sum = (t.map size).sum + t.countP isSpecial := by
  induction t with
  | nil => rfl
  | cons c t ih =>
    rw [escape_cons, List.map_append, List.sum_append, ih, List.map_cons, List.sum_cons]
    cases hc : isSpecial c with
    | false =>
      rw [escapeChar_plain hc, List.countP_cons_of_neg (by simp [hc])]
      simp
      omega
    | true =>
      obtain ⟨hascii, d, written, hd⟩ := escapeChar_special hc
      rw [written, List.countP_cons_of_pos hc, ascii c hascii]
      simp [ascii d hd, ascii '\\' (by decide)]
      omega

/-- The size of a text in quotes grows when it is escaped once more. -/
theorem sum_quote_lt {size : Char → Nat} (ascii : ∀ c, c.toNat < 128 → size c = 1) {t : Text}
    (h : ∃ c ∈ t, isSpecial c = true) :
    ((quote t).map size).sum < ((quote (escape t)).map size).sum := by
  have more : 0 < (escape t).countP isSpecial := List.countP_pos_iff.2 (exists_special_escape h)
  have escaped := sum_escape ascii (escape t)
  simp only [quote, List.map_cons, List.map_append, List.sum_cons, List.sum_append]
  omega

/-! ## What writing leaves alone -/

/-- Writing has nothing left to do on what it writes for the raw value: it
    stands bare, or nothing is escaped between its quotes. -/
def Settled (raw : Text) : Prop :=
  Bare (write raw) ∨ write raw = quote (body raw) ∧ ∀ c ∈ body raw, isSpecial c = false

theorem write_write_of_settled {raw : Text} (h : Settled raw) : write (write raw) = write raw := by
  rcases h with bare | ⟨quoted, plain⟩
  · exact bare.write_eq
  · rw [quoted, write_quote, escape_of_plain plain]

/-- What is not settled is longer the second time. -/
theorem sum_write_lt {size : Char → Nat} (ascii : ∀ c, c.toNat < 128 → size c = 1) {raw : Text}
    (h : ¬ Settled raw) :
    ((write raw).map size).sum < ((write (write raw)).map size).sum := by
  have quoted := (bare_or_quote raw).resolve_left fun bare => h (.inl bare)
  have special : ∃ c ∈ body raw, isSpecial c = true := by
    by_contra none
    exact h (.inr ⟨quoted, fun c hc => by
      cases hs : isSpecial c with
      | false => rfl
      | true => exact absurd ⟨c, hc, hs⟩ none⟩)
  rw [quoted, write_quote]
  exact sum_quote_lt ascii special

/-- **Writing what is written.**  It stays as it is exactly if it stands bare, or
    quotes a text without special characters.  Otherwise it gets longer, in
    characters and in bytes. -/
theorem write_write_eq_iff (raw : Text) :
    (write (write raw) = write raw ↔ Settled raw) ∧
      (¬ Settled raw →
        (write raw).length < (write (write raw)).length ∧
          (Utf8.encode (write raw)).length < (Utf8.encode (write (write raw))).length) := by
  have longer (h : ¬ Settled raw) : (write raw).length < (write (write raw)).length := by
    have counted := @sum_write_lt (fun _ => 1) (fun _ _ => rfl) raw h
    simpa using counted
  refine ⟨⟨fun same => ?_, write_write_of_settled⟩, fun h => ⟨longer h, ?_⟩⟩
  · by_contra unsettled
    have grown := longer unsettled
    rw [same] at grown
    exact Nat.lt_irrefl _ grown
  · rw [Utf8.length_encode, Utf8.length_encode]
    exact sum_write_lt (fun _ => Utf8.utf8Size_of_ascii) h

/-- A number with a sign and zeros in front, a number in quotes, and a word in
    double quotes within a text. -/
theorem write_write_eq_iff_samples :
    (write " +0042 ".toList = "42".toList ∧
      write (write " +0042 ".toList) = write " +0042 ".toList) ∧
    (write "'0122'".toList = "\"0122\"".toList ∧
      write (write "'0122'".toList) = write "'0122'".toList) ∧
    (write "say \"hi\"".toList = "\"say \\\"hi\\\"\"".toList ∧
      write (write "say \"hi\"".toList) = "\"say \\\\\\\"hi\\\\\\\"\"".toList ∧
      (write "say \"hi\"".toList).length < (write (write "say \"hi\"".toList)).length) := by
  have number : Settled " +0042 ".toList := by
    have written : write " +0042 ".toList = Integer.write 42 := by decide
    exact .inl (written ▸ .integer (by decide) (by decide))
  have plain : List.all (body "'0122'".toList) (fun c => !isSpecial c) = true := by decide
  have digits : Settled "'0122'".toList := .inr ⟨by decide, by simpa using plain⟩
  have escaped : ¬ Settled "say \"hi\"".toList := fun h =>
    absurd ((write_write_eq_iff _).1.2 h) (by decide)
  exact ⟨⟨by decide, (write_write_eq_iff _).1.2 number⟩,
    ⟨by decide, (write_write_eq_iff _).1.2 digits⟩,
    by decide, by decide, ((write_write_eq_iff _).2 escaped).1⟩

end EnvFile.Value
