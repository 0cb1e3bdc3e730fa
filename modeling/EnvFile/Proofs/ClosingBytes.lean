import EnvFile.Proofs.EncodedText
import EnvFile.Proofs.CommentSegments

/-! # Closing quotes among bytes

    `Bytes.closingEnd` looks at bytes for what `Segment.closes` looks at
    characters for.  It passes over a text none of whose quotes closes
    (`closingEnd_append`), so an opened quote comes to one of two ends: nothing
    closes it (`closingEnd_unclosed`), or it closes behind the text that it
    encloses (`closingEnd_enclosed`).  The second is an end only if a line feed
    stands between the two quotes. -/

namespace EnvFile

namespace Bytes

open Utf8 Segment

/-! ## Escaped quotes -/

theorem backslashesBefore_encode (t u : Text) :
    backslashesBefore (encode (t ++ u)) (encode t).length =
      (t.rtakeWhile (· == '\\')).length := by
  induction t using List.reverseRecOn generalizing u with
  | nil => rfl
  | append_singleton t c ih =>
    have text : t ++ [c] ++ u = t ++ c :: u := by simp
    by_cases hc : c = '\\'
    · subst hc
      have one : (encode (t ++ ['\\'])).length = (encode t).length + 1 := by
        rw [encode_append, List.length_append]
        rfl
      rw [one, backslashesBefore, text, if_pos ((getElem?_encode_eq (by decide)).2 rfl), ih,
        List.rtakeWhile_concat_pos _ _ _ (by rfl), List.length_append, List.length_singleton]
    · -- the last byte in front is that of another character
      obtain ⟨init, b, bytes⟩ :=
        (List.eq_nil_or_concat' (String.utf8EncodeChar c)).resolve_left String.utf8EncodeChar_ne_nil
      have other : b ≠ '\\'.toUInt8 := by
        intro e
        exact hc ((mem_encodeChar_iff (by decide) (bytes ▸ by simp)).1 e)
      have length : (encode (t ++ [c])).length = ((encode t).length + init.length) + 1 := by
        rw [encode_append, encode_cons, bytes]
        simp [encode]
        omega
      have last : (encode (t ++ [c] ++ u))[(encode t).length + init.length]? = some b := by
        rw [text, encode_append, encode_cons, bytes]
        simp
      rw [length, backslashesBefore, last, if_neg (by simpa using other),
        List.rtakeWhile_concat_neg _ _ _ (by simpa using hc)]
      rfl

theorem ascii_of_isQuote {q : Char} (h : Value.isQuote q = true) : q.toNat < 128 := by
  simp only [Value.isQuote, Bool.or_eq_true, beq_iff_eq] at h
  rcases h with rfl | rfl <;> decide

theorem isEscaped_encode {q : Char} (h : Value.isQuote q = true) (t u : Text) :
    isEscaped (encode (t ++ u)) q.toUInt8 (encode t).length = true ↔ IsEscaped q t := by
  have double : q.toUInt8 = '"'.toUInt8 ↔ q = '"' := by
    simp only [Value.isQuote, Bool.or_eq_true, beq_iff_eq] at h
    rcases h with rfl | rfl <;> decide
  simp only [isEscaped, backslashesBefore_encode, Bool.and_eq_true, beq_iff_eq, double, IsEscaped]

/-- What stands in front of an opened quote does not escape anything behind it. -/
theorem isEscaped_behind {q d : Char} (h : d ≠ '\\') (t u : Text) :
    IsEscaped q (t ++ d :: u) ↔ IsEscaped q u := by
  have run : (t ++ d :: u).rtakeWhile (· == '\\') = u.rtakeWhile (· == '\\') := by
    induction u using List.reverseRecOn with
    | nil => exact List.rtakeWhile_concat_neg _ _ _ (by simpa using h)
    | append_singleton u c ih =>
      rw [← List.cons_append, ← List.append_assoc]
      by_cases hc : c = '\\'
      · rw [List.rtakeWhile_concat_pos _ _ _ (by simpa using hc),
          List.rtakeWhile_concat_pos _ _ _ (by simpa using hc), ih]
      · rw [List.rtakeWhile_concat_neg _ _ _ (by simpa using hc),
          List.rtakeWhile_concat_neg _ _ _ (by simpa using hc)]
  unfold IsEscaped
  rw [run]

/-! ## The closing quote -/

theorem closingEnd_bytes {quote : UInt8} {broken : Bool} (xs ys zs : List UInt8)
    (other : ∀ b ∈ ys, b ≠ '\n'.toUInt8 ∧ b ≠ quote) :
    closingEnd (xs ++ (ys ++ zs)) quote broken xs.length =
      closingEnd (xs ++ (ys ++ zs)) quote broken (xs ++ ys).length := by
  induction ys generalizing xs with
  | nil => simp
  | cons b ys ih =>
    obtain ⟨feed, close⟩ := other b List.mem_cons_self
    have rest := ih (xs ++ [b]) fun c hc => other c (List.mem_cons_of_mem b hc)
    simp only [List.append_assoc, List.cons_append, List.nil_append] at rest ⊢
    rw [← rest]
    conv_lhs => unfold closingEnd
    simp [feed, close]

/-- At the end of the text nothing closes. -/
theorem closingEnd_end (bytes : List UInt8) (close : UInt8) (broken : Bool) :
    closingEnd bytes close broken bytes.length = .ok none := by
  unfold closingEnd
  rw [dif_neg (Nat.lt_irrefl _)]

section Characters

variable {q : Char} (quote : Value.isQuote q = true)
include quote

theorem closingEnd_char {front u : Text} {c : Char} (silent : c = q → IsEscaped q front)
    (broken : Bool) :
    closingEnd (encode (front ++ c :: u)) q.toUInt8 broken (encode front).length =
      closingEnd (encode (front ++ c :: u)) q.toUInt8 (broken || decide ('\n' = c))
        (encode (front ++ [c])).length := by
  have one {d : Char} (ascii : d.toNat < 128) :
      (encode (front ++ [d])).length = (encode front).length + 1 := by
    rw [encode_append, List.length_append, encode_cons, encodeChar_of_ascii ascii]
    rfl
  by_cases feed : c = '\n'
  · subst feed
    have get := (getElem?_encode_eq (t := front) (u := u) (by decide)).2 (rfl : '\n' = '\n')
    obtain ⟨bound, byte⟩ := List.getElem?_eq_some_iff.1 get
    conv_lhs => unfold closingEnd
    rw [dif_pos bound, if_pos byte, one (by decide)]
    simp
  by_cases close : c = q
  · subst close
    have get := (getElem?_encode_eq (t := front) (u := u) (ascii_of_isQuote quote)).2 (rfl : c = c)
    obtain ⟨bound, byte⟩ := List.getElem?_eq_some_iff.1 get
    have escaped := (isEscaped_encode quote front (c :: u)).2 (silent rfl)
    have differ : c.toUInt8 ≠ '\n'.toUInt8 := by
      simp only [Value.isQuote, Bool.or_eq_true, beq_iff_eq] at quote
      rcases quote with rfl | rfl <;> decide
    conv_lhs => unfold closingEnd
    rw [dif_pos bound, byte, if_neg differ, escaped, one (ascii_of_isQuote quote)]
    simp [Ne.symm feed]
  · have other : ∀ b ∈ String.utf8EncodeChar c, b ≠ '\n'.toUInt8 ∧ b ≠ q.toUInt8 := by
      intro b hb
      constructor
      · rintro rfl
        exact feed ((mem_encodeChar_iff (by decide) hb).1 rfl)
      · rintro rfl
        exact close ((mem_encodeChar_iff (ascii_of_isQuote quote) hb).1 rfl)
    have stays : (broken || decide ('\n' = c)) = broken := by simp [Ne.symm feed]
    have skip := @closingEnd_bytes q.toUInt8 broken (encode front) (String.utf8EncodeChar c)
      (encode u) other
    have last : encode front ++ String.utf8EncodeChar c = encode (front ++ [c]) := by
      rw [encode_append]
      simp [encode]
    rw [last, ← encode_cons, ← encode_append] at skip
    rw [skip, stays]

/-- The search passes over what does not close. -/
theorem closingEnd_append {front text u : Text} {broken : Bool}
    (silent : ∀ pre post, text = pre ++ q :: post → IsEscaped q (front ++ pre)) :
    closingEnd (encode (front ++ (text ++ u))) q.toUInt8 broken (encode front).length =
      closingEnd (encode (front ++ (text ++ u))) q.toUInt8 (broken || decide ('\n' ∈ text))
        (encode (front ++ text)).length := by
  induction text generalizing front broken with
  | nil => simp
  | cons c text ih =>
    have here : c = q → IsEscaped q front := by
      rintro rfl
      simpa using silent [] text rfl
    have behind : ∀ pre post, text = pre ++ q :: post → IsEscaped q (front ++ [c] ++ pre) := by
      rintro pre post rfl
      simpa using silent (c :: pre) post rfl
    have char := closingEnd_char quote (u := text ++ u) here broken
    have rest := @ih (front ++ [c]) (broken || decide ('\n' = c)) behind
    simp only [List.append_assoc, List.singleton_append] at rest
    rw [List.cons_append, char, rest]
    simp [Bool.or_assoc]

/-- A quote that closes behind a line feed yields the end of its line. -/
theorem closingEnd_quote {front tail after : Text} (unescaped : ¬ IsEscaped q front)
    (line : '\n' ∉ tail) (ends : after.EndsLine) (broken : Bool) :
    closingEnd (encode (front ++ q :: (tail ++ after))) q.toUInt8 broken (encode front).length =
      .ok (if broken then some (encode (front ++ q :: tail)).length else none) := by
  have ascii := ascii_of_isQuote quote
  have feed : q ≠ '\n' := newline_ne_of_isQuote quote
  have get := (getElem?_encode_eq (t := front) (u := tail ++ after) ascii).2 (rfl : q = q)
  obtain ⟨bound, byte⟩ := List.getElem?_eq_some_iff.1 get
  have closes : isEscaped (encode (front ++ q :: (tail ++ after))) q.toUInt8
      (encode front).length = false := by
    rw [← Bool.not_eq_true, isEscaped_encode quote]
    exact unescaped
  have differ : q.toUInt8 ≠ '\n'.toUInt8 := by
    intro e
    have only : q.toUInt8 ∈ String.utf8EncodeChar q := by simp [encodeChar_of_ascii ascii]
    exact feed ((mem_encodeChar_iff (by decide) only).1 e)
  have whole : '\n' ∉ q :: tail := by simp [line, Ne.symm feed]
  have lineEnd := lineEnd_encode whole ends
  rw [List.cons_append] at lineEnd
  unfold closingEnd
  rw [dif_pos bound, byte, if_neg differ, closes, slice_encode_end, Except.map, lineEnd]
  cases broken with
  | false => exact if_pos ⟨rfl, rfl⟩
  | true => simp [encode_append]

end Characters

/-! ## What an opened quote comes to -/

section Opened

variable {q : Char} (quote : Value.isQuote q = true) {front : Text}
include quote

theorem backslash_ne_of_isQuote : q ≠ '\\' :=
  ne_of_class quote (by decide)

/-- A quote that nothing closes is no open quote. -/
theorem closingEnd_unclosed {text : Text} (unclosed : closes q false text = false) :
    closingEnd (encode (front ++ q :: text)) q.toUInt8 false (encode (front ++ [q])).length =
      .ok none := by
  have silent : ∀ pre post, text = pre ++ q :: post → IsEscaped q (front ++ [q] ++ pre) := by
    intro pre post e
    rw [← List.append_cons, isEscaped_behind (backslash_ne_of_isQuote quote)]
    exact closes_eq_false_iff.1 unclosed pre post e
  have skip := @closingEnd_append q quote (front ++ [q]) text [] false silent
  rw [List.append_nil, ← List.append_cons] at skip
  rw [skip, closingEnd_end]

/-- A quote that closes on a line further below makes its line the last. -/
theorem closingEnd_enclosed {body tail after : Text} (encloses : Encloses q body)
    (line : '\n' ∉ tail) (ends : after.EndsLine) :
    closingEnd (encode (front ++ q :: (body ++ q :: (tail ++ after)))) q.toUInt8 false
        (encode (front ++ [q])).length =
      .ok (if '\n' ∈ body then some (encode (front ++ q :: (body ++ q :: tail))).length
        else none) := by
  have behind (u : Text) : IsEscaped q (front ++ [q] ++ u) ↔ IsEscaped q u := by
    rw [← List.append_cons, isEscaped_behind (backslash_ne_of_isQuote quote)]
  have skip := @closingEnd_append q quote (front ++ [q]) body (q :: (tail ++ after)) false
    fun pre post e => (behind pre).2 (encloses.inside pre post e)
  have close := closingEnd_quote quote (mt (behind body).1 encloses.behind) line ends
    (decide ('\n' ∈ body))
  simp only [List.append_assoc, List.cons_append, List.nil_append, Bool.false_or] at skip close
  rw [skip, close]
  simp

end Opened

end Bytes

end EnvFile
