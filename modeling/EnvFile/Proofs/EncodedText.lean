import EnvFile.Scanner
import EnvFile.Proofs.Texts
import Mathlib.Algebra.Ring.Nat

/-! # Encoded texts

    A byte of an encoded text belongs to one of its characters.  A class of bytes
    *tells* a class of characters if every byte of a character is in the one
    exactly if the character is in the other; the classes that are given by ASCII
    characters do so, and their complements.  Therefore a search for the first
    byte of a class ends where a character begins (`findIdx?_encode`).

    * `length_encode`: the size of an encoded text.
    * `isBoundary_encode`, `slice_encode`: where an encoded text can be cut. -/

namespace EnvFile

namespace Text

/-- A text ends here, or a line of it does. -/
def EndsLine (after : Text) : Prop :=
  after = [] ∨ after.head? = some '\n'

/-- The lines in front of an end of line are lines of the whole. -/
theorem exists_lines_endsLine (u : Text) {after : Text} (ends : after.EndsLine) :
    ∃ below, (u ++ after).lines = u.lines ++ below := by
  rcases ends with rfl | ends
  · exact ⟨[], by simp⟩
  · obtain ⟨v, rfl⟩ := List.head?_eq_some_iff.1 ends
    exact ⟨lines v, lines_append u v⟩

/-- A text begins with its first line. -/
theorem exists_endsLine (t : Text) : ∃ line after, t = line ++ after ∧ '\n' ∉ line ∧ EndsLine after := by
  obtain ⟨line, run, cut⟩ := exists_run (· != '\n') t
  have whole : '\n' ∉ line := fun hn => by simpa using run _ hn
  rcases cut with rfl | ⟨c, rest, rfl, stop⟩
  · exact ⟨t, [], by simp, whole, .inl rfl⟩
  · exact ⟨line, c :: rest, rfl, whole, .inr (by simpa using stop)⟩

end Text

namespace Utf8

theorem encode_append (t u : Text) : encode (t ++ u) = encode t ++ encode u :=
  List.flatMap_append

theorem encode_cons (c : Char) (t : Text) : encode (c :: t) = String.utf8EncodeChar c ++ encode t :=
  rfl

theorem length_encode (t : Text) : (encode t).length = (t.map Char.utf8Size).sum := by
  simp [encode, List.length_flatMap]

/-! ## Characters of one byte and of several -/

theorem utf8Size_of_ascii {c : Char} (h : c.toNat < 128) : c.utf8Size = 1 :=
  Char.utf8Size_eq_one_iff.2 (UInt32.le_iff_toNat_le.2 (Nat.le_of_lt_succ h))

theorem encodeChar_of_ascii {c : Char} (h : c.toNat < 128) :
    String.utf8EncodeChar c = [c.toUInt8] :=
  String.utf8EncodeChar_eq_singleton (utf8Size_of_ascii h)

/-- A character outside ASCII has no byte of ASCII. -/
theorem le_of_mem_encodeChar {c : Char} (h : ¬ c.toNat < 128) {b : UInt8}
    (hb : b ∈ String.utf8EncodeChar c) : 128 ≤ b.toNat := by
  have large : ¬ c.val.toNat ≤ 127 := by
    show ¬ c.toNat ≤ 127
    omega
  rw [String.utf8EncodeChar.eq_def] at hb
  simp only [large, if_false] at hb
  split at hb
  · simp only [List.mem_cons, List.not_mem_nil, or_false] at hb
    rcases hb with rfl | rfl <;> simp <;> omega
  · split at hb
    · simp only [List.mem_cons, List.not_mem_nil, or_false] at hb
      rcases hb with rfl | rfl | rfl <;> simp <;> omega
    · simp only [List.mem_cons, List.not_mem_nil, or_false] at hb
      rcases hb with rfl | rfl | rfl | rfl <;> simp <;> omega

theorem toNat_toUInt8 {c : Char} (h : c.toNat < 128) : c.toUInt8.toNat = c.toNat := by
  show c.toNat % 2 ^ 8 = c.toNat
  omega

/-- The bytes of an ASCII character stand in no other character. -/
theorem mem_encodeChar_iff {c d : Char} (h : d.toNat < 128) {b : UInt8}
    (hb : b ∈ String.utf8EncodeChar c) : b = d.toUInt8 ↔ c = d := by
  by_cases hc : c.toNat < 128
  · rw [encodeChar_of_ascii hc, List.mem_singleton] at hb
    rw [hb, ← Char.toNat_inj, ← UInt8.toNat_inj, toNat_toUInt8 hc, toNat_toUInt8 h]
  · have large := le_of_mem_encodeChar hc hb
    constructor
    · rintro rfl
      rw [toNat_toUInt8 h] at large
      omega
    · rintro rfl
      exact absurd h hc

end Utf8

namespace Bytes

open Utf8

/-! ## Classes of bytes -/

/-- The bytes of a character are of the class `p` exactly if the character is of
    the class `q`. -/
def Tells (p : UInt8 → Bool) (q : Char → Bool) : Prop :=
  ∀ c, ∀ b ∈ String.utf8EncodeChar c, p b = q c

theorem tells_isOneOf {cs : List Char} (all_ascii : cs.all (·.toNat < 128) = true) :
    Tells (isOneOf cs) cs.contains := by
  have ascii : ∀ c ∈ cs, c.toNat < 128 := by simpa using all_ascii
  intro c b hb
  unfold isOneOf
  rw [Bool.eq_iff_iff, List.any_eq_true, List.contains_iff_mem]
  constructor
  · rintro ⟨d, hd, e⟩
    rwa [(mem_encodeChar_iff (ascii d hd) hb).1 (beq_iff_eq.1 e)]
  · intro hc
    exact ⟨c, hc, beq_iff_eq.2 ((mem_encodeChar_iff (ascii c hc) hb).2 rfl)⟩

theorem Tells.not {p : UInt8 → Bool} {q : Char → Bool} (h : Tells p q) :
    Tells (fun b => !p b) (fun c => !q c) := by
  intro c b hb
  exact congrArg (fun x => !x) (h c b hb)

/-- A class that tells none of the characters of a text has none of its bytes. -/
theorem Tells.none {p : UInt8 → Bool} {q : Char → Bool} (h : Tells p q) {t : Text}
    (none : ∀ c ∈ t, q c = false) : ∀ b ∈ encode t, p b = false := by
  intro b hb
  obtain ⟨c, hc, hb⟩ := List.mem_flatMap.1 hb
  rw [h c b hb, none c hc]

theorem exists_encode_cons (c : Char) (t : Text) :
    ∃ b bs, encode (c :: t) = b :: bs ∧ b ∈ String.utf8EncodeChar c := by
  obtain ⟨b, bs, cut⟩ := List.exists_cons_of_ne_nil (String.utf8EncodeChar_ne_nil (c := c))
  exact ⟨b, bs ++ encode t, by rw [encode_cons, cut, List.cons_append], by simp [cut]⟩

/-- **A search ends where a character begins.** -/
theorem findIdx?_encode {p : UInt8 → Bool} {q : Char → Bool} (h : Tells p q) {t : Text} {c : Char}
    (absent : ∀ d ∈ t, q d = false) (hc : q c = true) (u : Text) :
    (encode (t ++ c :: u)).findIdx? p = some (encode t).length := by
  obtain ⟨b, bs, cut, hb⟩ := exists_encode_cons c u
  rw [encode_append, cut, List.findIdx?_append, List.findIdx?_eq_none_iff.2 (h.none absent),
    List.findIdx?_cons, h c b hb, hc]
  simp

theorem findIdx?_encode_eq_none {p : UInt8 → Bool} {q : Char → Bool} (h : Tells p q) {t : Text}
    (absent : ∀ d ∈ t, q d = false) : (encode t).findIdx? p = none :=
  List.findIdx?_eq_none_iff.2 (h.none absent)

theorem tells_newline : Tells (isOneOf ['\n']) (· == '\n') := by
  intro c b hb
  rw [tells_isOneOf rfl c b hb]
  simp [Bool.beq_eq_decide_eq]

theorem count_encode (t : Text) : (encode t).count '\n'.toUInt8 = t.count '\n' := by
  induction t with
  | nil => rfl
  | cons c t ih =>
    rw [encode_cons, List.count_append, ih, List.count_cons]
    by_cases hc : c = '\n'
    · subst hc
      rw [encodeChar_of_ascii (by decide)]
      simp
      omega
    · have none : '\n'.toUInt8 ∉ String.utf8EncodeChar c := by
        intro hb
        exact hc ((mem_encodeChar_iff (by decide) hb).1 rfl)
      rw [List.count_eq_zero.2 none]
      simp [hc]

/-! ## Cuts -/

/-- The byte behind the encoded beginning of a text is the first of a character. -/
theorem getElem?_encode {t : Text} {c : Char} {u : Text} :
    ∃ b ∈ String.utf8EncodeChar c, (encode (t ++ c :: u))[(encode t).length]? = some b := by
  obtain ⟨b, bs, cut, hb⟩ := exists_encode_cons c u
  exact ⟨b, hb, by rw [encode_append, cut]; simp⟩

theorem getElem?_encode_eq {t : Text} {c d : Char} {u : Text} (ascii : d.toNat < 128) :
    (encode (t ++ c :: u))[(encode t).length]? = some d.toUInt8 ↔ c = d := by
  obtain ⟨b, hb, get⟩ := getElem?_encode (t := t) (c := c) (u := u)
  rw [get, Option.some.injEq, mem_encodeChar_iff ascii hb]

/-- The first byte of a character is no continuation. -/
theorem exists_leading (c : Char) :
    ∃ b bs, String.utf8EncodeChar c = b :: bs ∧ isContinuation b = false := by
  by_cases ascii : c.toNat < 128
  · refine ⟨_, _, encodeChar_of_ascii ascii, ?_⟩
    have small := toNat_toUInt8 ascii
    simp [isContinuation, UInt8.le_iff_toNat_le, small]
    omega
  · have large : ¬ c.val.toNat ≤ 127 := by
      show ¬ c.toNat ≤ 127
      omega
    rw [String.utf8EncodeChar.eq_def]
    simp only [large, if_false]
    split
    · refine ⟨_, _, rfl, ?_⟩
      simp [isContinuation, UInt8.le_iff_toNat_le]
      omega
    · split
      · refine ⟨_, _, rfl, ?_⟩
        simp [isContinuation, UInt8.le_iff_toNat_le]
        omega
      · refine ⟨_, _, rfl, ?_⟩
        simp [isContinuation, UInt8.le_iff_toNat_le]
        omega

/-- An encoded text can be cut where the encoded beginning ends. -/
theorem isBoundary_encode (t u : Text) : isBoundary (encode (t ++ u)) (encode t).length = true := by
  cases u with
  | nil => simp [isBoundary]
  | cons c u =>
    obtain ⟨b, bs, first, starts⟩ := exists_leading c
    rw [encode_append, encode_cons, first]
    simp [isBoundary, starts]

theorem isBoundary_zero (bytes : List UInt8) : isBoundary bytes 0 = true := rfl

theorem isBoundary_length (bytes : List UInt8) : isBoundary bytes bytes.length = true := by
  simp [isBoundary]

theorem slice_eq {bytes : List UInt8} {start stop : Nat} (ordered : start ≤ stop)
    (bounded : stop ≤ bytes.length) (first : isBoundary bytes start = true)
    (last : isBoundary bytes stop = true) :
    slice bytes start stop = .ok ((bytes.take stop).drop start) :=
  if_pos ⟨ordered, bounded, first, last⟩

/-- The end of an encoded text can be cut off. -/
theorem slice_encode_end (t u : Text) :
    slice (encode (t ++ u)) (encode t).length (encode (t ++ u)).length = .ok (encode u) := by
  rw [slice_eq (by simp [encode_append]) (Nat.le_refl _) (isBoundary_encode t u)
    (isBoundary_length _), List.take_length, encode_append, List.drop_left]

/-- So can its beginning. -/
theorem slice_encode_start (t u : Text) :
    slice (encode (t ++ u)) 0 (encode t).length = .ok (encode t) := by
  rw [slice_eq (Nat.zero_le _) (by simp [encode_append]) (isBoundary_zero _)
    (isBoundary_encode t u), encode_append, List.take_left, List.drop_zero]

/-! ## Lines -/

/-- The first line of an encoded text ends where the first line of the text
    does. -/
theorem lineEnd_encode {t u : Text} (line : '\n' ∉ t) (ends : u.EndsLine) :
    lineEnd (encode (t ++ u)) = (encode t).length := by
  have absent : ∀ c ∈ t, (c == '\n') = false := by
    intro c hc
    have feed : c ≠ '\n' := by
      rintro rfl
      exact line hc
    simpa using feed
  unfold lineEnd
  rcases ends with rfl | ends
  · rw [List.append_nil, findIdx?_encode_eq_none tells_newline absent]
    rfl
  · obtain ⟨v, rfl⟩ := List.head?_eq_some_iff.1 ends
    rw [findIdx?_encode tells_newline absent (by decide)]
    rfl

end Bytes

end EnvFile
