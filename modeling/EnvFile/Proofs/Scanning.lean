import EnvFile.Proofs.FirstSegment

/-! # Scanning

    The scanner finds the segments of a text.  Each step takes the first segment
    off the text that stands in front of the scanner (`next_between`), and a run
    takes all of them (`exists_finds`).

    * `finds_segments`: nothing is lost, nothing is repeated, and every cut falls
      between two characters. -/

namespace EnvFile

/-- A text that a line feed ends moves the lines behind it down by its own. -/
theorem Text.lineBehind_append_newline (front u : Text) :
    (front ++ (u ++ ['\n'])).lineBehind = front.lineBehind + u.lineBehind := by
  simp [lineBehind]
  omega

/-! ## Texts as bytes -/

namespace Utf8

theorem encode_joinLines (ls : List Text) :
    encode (Text.joinLines ls) = List.intercalate ['\n'.toUInt8] (ls.map encode) := by
  induction ls with
  | nil => rfl
  | cons l ls ih =>
    cases ls with
    | nil => simp
    | cons m ls =>
      rw [Text.joinLines_cons_cons, encode_append, encode_cons, ih, encodeChar_of_ascii (by decide)]
      simp [List.intercalate]

theorem length_encode_pos {t : Text} (ne : t ≠ []) : 0 < (encode t).length := by
  obtain ⟨c, u, rfl⟩ := List.exists_cons_of_ne_nil ne
  rw [encode_cons, List.length_append]
  exact Nat.add_pos_left (List.length_pos_iff.2 String.utf8EncodeChar_ne_nil) _

end Utf8

namespace Segment

/-- The lines of a file are all of it, but for one line feed at the end. -/
theorem joinLines_fileLines (t : Text) :
    Text.joinLines (fileLines t) = if t.getLast? = some '\n' then t.dropLast else t := by
  induction t using List.reverseRecOn with
  | nil => rfl
  | append_singleton t c =>
    rw [List.getLast?_concat]
    by_cases feed : c = '\n'
    · rw [if_pos (congrArg some feed), List.dropLast_concat, feed, fileLines_append]
      show Text.joinLines (Text.lines t ++ []) = t
      rw [List.append_nil, Text.joinLines_lines]
    · rw [if_neg (by simpa using feed), fileLines_of_getLast? List.getLast?_concat feed,
        Text.joinLines_lines]

/-- An empty file has no segments. -/
theorem number_group_nil (n : Nat) : number n (group (fileLines [])) = [] := by
  rw [show fileLines [] = [] from rfl, group, number]

theorem line_le {t : Text} {g : Segment} (hg : g ∈ ofText t) : g.line ≤ (fileLines t).length := by
  obtain ⟨above, l, below, lines, line, -⟩ := exists_lines_of_mem hg
  rw [lines, line, List.length_append, List.length_cons]
  omega

end Segment

namespace Scanner

open Bytes Utf8 Segment

/-! ## One step -/

/-- A scanner behind the text `front` and in front of the text `t`. -/
def between (front t : Text) : Scanner where
  input := encode (front ++ t)
  offset := (encode front).length
  line := UInt32.ofNat front.lineBehind

/-- The piece of the text `u` behind the text `front`. -/
def piece (front u : Text) : Piece where
  offset := (encode front).length
  line := UInt32.ofNat front.lineBehind
  bytes := encode u

/-- A scanner that has taken the text `u` behind the text `front`. -/
def behind (front u after : Text) : Scanner where
  input := encode (front ++ (u ++ after))
  offset := (encode front).length + ((encode u).length + 1)
  line := UInt32.ofNat front.lineBehind + (UInt32.ofNat (u.count '\n') + 1)

theorem next_of_le {s : Scanner} (h : s.input.length ≤ s.offset) : s.next = .ok none :=
  if_pos h

/-- A step goes well if the two cuts and the search between them do. -/
theorem next_of_slice {s : Scanner} {rest text : List UInt8} {stop : Option Nat}
    (inside : s.offset < s.input.length) (cut : slice s.input s.offset s.input.length = .ok rest)
    (scanned : quotedEnd rest = .ok stop)
    (taken : slice rest 0 (stop.getD (lineEnd rest)) = .ok text) :
    s.next = .ok (some ({ offset := s.offset, line := s.line, bytes := text },
      { s with
        offset := s.offset + (stop.getD (lineEnd rest) + 1)
        line := s.line + (UInt32.ofNat (text.count '\n'.toUInt8) + 1) })) := by
  unfold next
  rw [if_neg (Nat.not_le_of_lt inside), cut]
  show (quotedEnd rest).bind _ = _
  rw [scanned]
  show (slice rest 0 (stop.getD (lineEnd rest))).bind _ = _
  rw [taken]
  rfl

/-- **One step** takes the first segment. -/
theorem next_between {t u after : Text} (h : First t u after) (ne : t ≠ []) (front : Text) :
    (between front t).next = .ok (some (piece front u, behind front u after)) := by
  obtain ⟨stop, scanned, ends⟩ := h.scanned
  have inside : (encode front).length < (encode (front ++ t)).length := by
    have some := length_encode_pos ne
    rw [encode_append, List.length_append]
    omega
  have taken : slice (encode t) 0 (stop.getD (lineEnd (encode t))) = .ok (encode u) := by
    rw [ends, h.text]
    exact slice_encode_start u after
  have step := @next_of_slice (between front t) _ _ _ inside (slice_encode_end front t) scanned taken
  rw [step, ends, count_encode]
  simp only [between, piece, behind, h.text]

/-- Behind a segment that a line feed ends, the scanner stands in front of the
    next one. -/
theorem behind_newline (front u rest : Text) :
    behind front u ('\n' :: rest) = between (front ++ (u ++ ['\n'])) rest := by
  have offset : (encode (front ++ (u ++ ['\n']))).length =
      (encode front).length + ((encode u).length + 1) := by
    rw [encode_append, encode_append, List.length_append, List.length_append]
    rfl
  have line : UInt32.ofNat (front ++ (u ++ ['\n'])).lineBehind =
      UInt32.ofNat front.lineBehind + (UInt32.ofNat (u.count '\n') + 1) := by
    have own : UInt32.ofNat u.lineBehind = UInt32.ofNat (u.count '\n') + 1 := UInt32.ofNat_add _ _
    rw [Text.lineBehind_append_newline, UInt32.ofNat_add, own]
  simp [behind, between, offset, line]

/-- Behind the last segment the file has ended. -/
theorem next_behind (front u : Text) : (behind front u []).next = .ok none := by
  apply next_of_le
  show (encode (front ++ (u ++ []))).length ≤ (encode front).length + ((encode u).length + 1)
  rw [List.append_nil, encode_append, List.length_append]
  omega

/-! ## A run -/

/-- A piece of the text `t` shows a segment: it holds its bytes and the number
    of its line, which is one more than the line feeds in front, and it stands in
    the text, between two characters at either end. -/
structure Shows (t : Text) (p : Piece) (g : Segment) : Prop where
  bytes : p.bytes = encode g.text
  line : p.line = UInt32.ofNat g.line
  above : g.line = ((encode t).take p.offset).count '\n'.toUInt8 + 1
  begins : isBoundary (encode t) p.offset = true
  ends : isBoundary (encode t) (p.offset + p.bytes.length) = true
  here : ((encode t).drop p.offset).take p.bytes.length = p.bytes

theorem shows_piece (front u after : Text) :
    Shows (front ++ (u ++ after)) (piece front u) { line := front.lineBehind, text := u } where
  bytes := rfl
  line := rfl
  above := by
    show front.lineBehind = ((encode (front ++ (u ++ after))).take (encode front).length).count _ + 1
    rw [encode_append, List.take_left, count_encode, Text.lineBehind]
  begins := isBoundary_encode front (u ++ after)
  ends := by
    have boundary := isBoundary_encode (front ++ u) after
    rwa [encode_append front, List.length_append, List.append_assoc] at boundary
  here := by
    show ((encode (front ++ (u ++ after))).drop (encode front).length).take (encode u).length = _
    rw [encode_append front, List.drop_left, encode_append, List.take_left]
    rfl

/-- **A run** finds the segments in front of the scanner one after the other. -/
theorem exists_finds (front t : Text) :
    ∃ ps, Finds (between front t) ps ∧
      List.Forall₂ (Shows (front ++ t)) ps (number front.lineBehind (group (fileLines t))) := by
  -- each step leaves a shorter text
  induction size : t.length using Nat.strong_induction_on generalizing front t with
  | _ n ih =>
    by_cases ne : t = []
    · subst ne
      have ended : (between front []).next = .ok none := next_of_le (by simp [between])
      exact ⟨[], .ended ended, number_group_nil _ ▸ .nil⟩
    obtain ⟨u, after, h⟩ := exists_first ne
    have step := next_between h ne front
    have shows := shows_piece front u after
    rw [← h.text] at shows
    rw [h.group_eq, number, Text.joinLines_lines]
    rcases h.ends with rfl | ends
    · have none := number_group_nil (front.lineBehind + u.lines.length)
      exact ⟨_, .found step (.ended (next_behind front u)), .cons shows (none ▸ .nil)⟩
    · obtain ⟨rest, rfl⟩ := List.head?_eq_some_iff.1 ends
      have shorter : rest.length < n := by
        rw [← size, h.text]
        simp
        omega
      obtain ⟨ps, finds, show_rest⟩ := ih rest.length shorter (front ++ (u ++ ['\n'])) rest rfl
      rw [← behind_newline] at finds
      have line : (front ++ (u ++ ['\n'])).lineBehind = front.lineBehind + u.lines.length := by
        rw [Text.lineBehind_append_newline, Text.length_lines]
      have text : front ++ (u ++ ['\n']) ++ rest = front ++ t := by
        rw [h.text]
        simp
      rw [line, text] at show_rest
      exact ⟨_, .found step finds, .cons shows show_rest⟩

/-- **The scanner finds the segments**, if there are no more lines than it can
    count.  Together they are the text, but for a line feed at its end; each
    stands where it says it does, and begins and ends between two characters. -/
theorem finds_segments (t : Text) (few : (fileLines t).length < UInt32.size) :
    ∃ ps, Finds { input := encode t } ps ∧
      List.Forall₂ (fun p g => p.bytes = encode g.text ∧ p.line.toNat = g.line) ps (ofText t) ∧
      List.intercalate ['\n'.toUInt8] (ps.map Piece.bytes) =
        encode (if t.getLast? = some '\n' then t.dropLast else t) ∧
      ∀ p ∈ ps,
        p.line.toNat = ((encode t).take p.offset).count '\n'.toUInt8 + 1 ∧
        isBoundary (encode t) p.offset = true ∧
        isBoundary (encode t) (p.offset + p.bytes.length) = true ∧
        ((encode t).drop p.offset).take p.bytes.length = p.bytes := by
  obtain ⟨ps, finds, run⟩ := exists_finds [] t
  rw [List.nil_append] at run
  have number : ∀ g ∈ ofText t, (UInt32.ofNat g.line).toNat = g.line := by
    intro g hg
    exact UInt32.toNat_ofNat_of_lt' (Nat.lt_of_le_of_lt (line_le hg) few)
  have numbered : List.Forall₂ (fun p g => (UInt32.ofNat g.line).toNat = g.line ∧ Shows t p g) ps
      (ofText t) := ((List.forall₂_and_left _ _).2 ⟨number, run.flip⟩).flip
  have found : List.Forall₂ (fun p g => p.bytes = encode g.text ∧ p.line.toNat = g.line) ps
      (ofText t) := numbered.imp fun p g ⟨line, shows⟩ => ⟨shows.bytes, shows.line ▸ line⟩
  have bytes : ps.map Piece.bytes = ((ofText t).map Segment.text).map encode := by
    rw [List.map_map, ← List.forall₂_eq_eq_eq, List.forall₂_map_left_iff, List.forall₂_map_right_iff]
    exact found.imp fun p g h => h.1
  have shown : (∀ p ∈ ps, ∃ g, Shows t p g ∧ p.line.toNat = g.line) ∧
      List.Forall₂ (Shows t) ps (ofText t) :=
    (List.forall₂_and_left _ _).1
      (numbered.imp fun p g ⟨line, shows⟩ => ⟨⟨g, shows, shows.line ▸ line⟩, shows⟩)
  refine ⟨ps, finds, found, ?_, fun p hp => ?_⟩
  · rw [bytes, ← encode_joinLines, joinLines_segments, joinLines_fileLines]
  · obtain ⟨g, shows, line⟩ := shown.1 p hp
    exact ⟨line.trans shows.above, shows.begins, shows.ends, shows.here⟩

/-- Characters outside ASCII, a blank line above an escaped quote, a quote that
    nothing closes, and a line feed at the end. -/
theorem finds_segments_sample :
    let t := "é='1\n2' # ü\n\nB=\"\\\"\n\"\nC='open\nD\n".toList
    (fileLines t).length < UInt32.size ∧
      ∃ ps, Finds { input := encode t } ps ∧
        ps.map (fun p => (p.line.toNat, p.bytes)) =
          [(1, encode "é='1\n2' # ü".toList), (3, encode "\nB=\"\\\"\n\"".toList),
            (6, encode "C='open".toList), (7, encode "D".toList)] ∧
        List.intercalate ['\n'.toUInt8] (ps.map Piece.bytes) = encode t.dropLast := by
  intro t
  have few : (fileLines t).length < UInt32.size := by decide +kernel
  have cut : (ofText t).map (fun g => (g.line, encode g.text)) =
      [(1, encode "é='1\n2' # ü".toList), (3, encode "\nB=\"\\\"\n\"".toList),
        (6, encode "C='open".toList), (7, encode "D".toList)] := by decide +kernel
  obtain ⟨ps, finds, found, joined, -⟩ := finds_segments t few
  refine ⟨few, ps, finds, ?_, joined⟩
  rw [← cut, ← List.forall₂_eq_eq_eq, List.forall₂_map_left_iff, List.forall₂_map_right_iff]
  exact found.imp fun p g h => Prod.ext h.2 h.1

end Scanner

end EnvFile
