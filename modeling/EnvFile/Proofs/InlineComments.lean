import EnvFile.Proofs.ClosingQuotes
import EnvFile.Proofs.Enclosing
import EnvFile.Proofs.SegmentKinds

/-! # Comments behind quoted values

    The framing of a file ends a quoted value at the first quote that closes,
    the reading of an assignment at the last one that only a comment follows.
    The two agree on a value that its quotes enclose if nothing stands behind
    it.  Behind a comment they may not: the comment can hold a quote that ends
    the value once more, and then part of the comment belongs to the value.

    * `RowSet.ofText_enclosing`: what is read of an enclosed value with text
      behind it.
    * `RowSet.ofText_inlineComment_iff`: which comments leave the value as it
      is without them. -/

namespace EnvFile

/-- The assignment of a value between two quotes `q`, with `tail` behind. -/
def Assignment.enclosing (key : Text) (q : Char) (body tail : Text) : Text :=
  key ++ '=' :: q :: (body ++ q :: tail)

variable {key body tail : Text} {q : Char}

/-! ## One segment -/

namespace Segment

/-- The text is one segment, if the quotes enclose the value. -/
theorem ofText_enclosing (legible : Key.Legible key) (quote : Value.isQuote q = true)
    (encloses : Encloses q body) (line : '\n' ∉ tail) :
    ofText (Assignment.enclosing key q body tail) =
      [⟨1, Assignment.enclosing key q body tail⟩] := by
  have text : Assignment.enclosing key q body tail = key ++ ['='] ++ q :: (body ++ q :: tail) := by
    simp [Assignment.enclosing]
  generalize Assignment.enclosing key q body tail = t at text ⊢
  -- the last line does not end in a line feed
  obtain ⟨c, last, hc⟩ : ∃ c, t.getLast? = some c ∧ c ≠ '\n' := by
    have ends : t = (key ++ ['='] ++ q :: body) ++ q :: tail := by simp [text]
    have some := List.getLast?_eq_some_getLast (List.cons_ne_nil q tail)
    refine ⟨_, by rw [ends, List.getLast?_append, some, Option.some_or], ?_⟩
    intro feed
    rcases List.mem_cons.1 (feed ▸ List.getLast_mem (List.cons_ne_nil q tail)) with h | h
    · exact newline_ne_of_isQuote quote h.symm
    · exact line h
  have framed := group_enclosed quote (opening?_quoted legible quote)
    (newline_not_mem_equals legible) line encloses []
  rw [List.append_nil, ← text, show group [] = [] by rw [group]] at framed
  rw [ofText, fileLines_of_getLast? last hc, framed]
  show [Segment.mk 1 (Text.joinLines t.lines)] = _
  rw [Text.joinLines_lines]

end Segment

/-! ## One assignment -/

namespace Assignment

/-- How the assignment is read, if it has a quoted value. -/
theorem read?_enclosing (legible : Key.Legible key) (quote : Value.isQuote q = true)
    {raw comment : Text}
    (value : quoted? (q :: (body ++ q :: Text.trimRight isBlank tail)) = some (raw, comment)) :
    Statement.read? (enclosing key q body tail) =
      some (.assignment (ofParts key (raw, comment))) := by
  have nonblank := Value.isBlank_of_isQuote quote
  have trimmed : Text.trimRight isBlank (q :: (body ++ q :: tail)) =
      q :: (body ++ q :: Text.trimRight isBlank tail) := by
    have := Text.trimRight_append_cons nonblank (q :: body) tail
    simpa using this
  apply Statement.read?_of_rawValue? legible (.inl rfl) (separator?_equals _)
  rw [trimmed, rawValue?_equals, List.dropWhile_cons_of_neg (by simp [nonblank]), value]
  rfl

/-- With a comment behind it the value ends where its quotes do, unless a quote
    in the comment can end it too. -/
theorem quoted?_comment (quote : Value.isQuote q = true) {comment : Text} (line : '\n' ∉ comment)
    (body : Text) :
    quoted? (q :: (body ++ q :: Text.trimRight isBlank (" # ".toList ++ comment))) =
      some ((lastClosing? q comment).elim
        (q :: (body ++ [q]), Text.trimRight isBlank (' ' :: comment)) fun p =>
        (q :: (body ++ q :: (" # ".toList ++ p.1) ++ [q]), Text.trimRight isBlank p.2)) := by
  have nonblank := Value.isBlank_of_isQuote quote
  have space : ' ' ≠ q := (ne_of_class quote (by decide)).symm
  have mark : '#' ≠ q := (ne_of_class quote (by decide)).symm
  have tail_line : '\n' ∉ " # ".toList ++ comment := by simp [line]
  have trails : trailer? (Text.trimRight isBlank (" # ".toList ++ comment)) =
      some (Text.trimRight isBlank (' ' :: comment)) := by
    rw [trailer?_trimRight tail_line]
    simp [trailer?, isBlank, line]
  -- the marker and the blanks around it are no quotes
  have later : lastClosing? q (Text.trimRight isBlank (" # ".toList ++ comment)) =
      (lastClosing? q comment).map
        fun p => (" # ".toList ++ p.1, Text.trimRight isBlank p.2) := by
    rw [lastClosing?_trimRight nonblank tail_line]
    show (lastClosing? q (' ' :: '#' :: ' ' :: comment)).map _ = _
    rw [lastClosing?_cons_ne space, lastClosing?_cons_ne mark, lastClosing?_cons_ne space]
    cases lastClosing? q comment <;> rfl
  rw [quoted?_cons quote, lastClosing?_append trails, later]
  cases lastClosing? q comment <;> rfl

end Assignment

namespace RowSet

/-- **What is read of an enclosed value with text behind it** is one live row.
    Its value is what `quoted?` makes of the assignment. -/
theorem ofText_enclosing (legible : Key.Legible key) (quote : Value.isQuote q = true)
    (encloses : Segment.Encloses q body) (body_creturn : '\r' ∉ body) (line : '\n' ∉ tail)
    (tail_creturn : '\r' ∉ tail) {raw comment : Text}
    (value : Assignment.quoted? (q :: (body ++ q :: Text.trimRight isBlank tail)) =
      some (raw, comment)) (layout : Layout) :
    ofText layout (Assignment.enclosing key q body tail) =
      .ok (ofRows [(Row.ofPair key (Value.read raw.trim)).setComment comment.trim]) := by
  have creturn : '\r' ∉ Assignment.enclosing key q body tail := by
    have key_creturn : '\r' ∉ key := fun h => absurd (legible.isKeyChar h) (by decide)
    have quote_creturn : '\r' ≠ q := (ne_of_class quote (by decide)).symm
    simp [Assignment.enclosing, key_creturn, quote_creturn, body_creturn, tail_creturn]
  have reads := Assignment.read?_enclosing legible quote value
  have kind : Segment.kind layout (Assignment.enclosing key q body tail) =
      .row (Assignment.ofParts key (raw, comment)) false :=
    Segment.kind_of_assignment legible (.inl rfl) reads layout
  unfold ofText
  rw [Text.normalizeNewlines_of_not_mem creturn,
    Segment.ofText_enclosing legible quote encloses line, Reader.feedAll,
    Reader.feed_eq (fun l hl => absurd hl List.not_mem_nil), kind]
  -- the row comes first, so it is taken as it is
  show Except.ok (({} : Reader).receive (.brought [] _ false)).rows = _
  unfold Row.brought
  rw [List.map_nil, List.nil_append, Text.joinNonempty_singleton]
  rfl

/-- **A comment leaves a quoted value alone exactly if no quote in it could end
    the value.**  A quote could if blanks or a further comment marker follow
    it.  The assignment is read as one live row in any case; but it has the
    value that it has without the comment, and the comment as its comment, only
    if no quote of this kind in the comment is followed by a trailer. -/
theorem ofText_inlineComment_iff (legible : Key.Legible key) (quote : Value.isQuote q = true)
    (encloses : Segment.Encloses q body) (body_creturn : '\r' ∉ body) {comment : Text}
    (line : '\n' ∉ comment) (creturn : '\r' ∉ comment) (layout : Layout) :
    ∃ plain value text : Text,
      ofText layout (Assignment.enclosing key q body []) = .ok (ofRows [Row.ofPair key plain]) ∧
      ofText layout (Assignment.enclosing key q body (" # ".toList ++ comment)) =
        .ok (ofRows [(Row.ofPair key value).setComment text]) ∧
      ((value = plain ∧ text = comment.trim) ↔
        ∀ pre post, comment = pre ++ q :: post → ¬ Assignment.IsTrailer post) := by
  have nonblank := Value.isBlank_of_isQuote quote
  have tail_line : '\n' ∉ " # ".toList ++ comment := by simp [line]
  have tail_creturn : '\r' ∉ " # ".toList ++ comment := by simp [creturn]
  have end_blank (t : Text) : (Text.trimRight isBlank t).trim = t.trim :=
    Text.strip_trimRight isBlank t
  have alone := ofText_enclosing legible quote encloses body_creturn List.not_mem_nil
    List.not_mem_nil (Assignment.quoted?_quoted quote body) layout
  rw [Value.trim_quoted quote] at alone
  have closing := Assignment.quoted?_comment quote line body
  cases last : Assignment.lastClosing? q comment with
  | none =>
    rw [last] at closing
    have value := ofText_enclosing legible quote encloses body_creturn tail_line tail_creturn
      closing layout
    have blank_front : Text.trim (' ' :: comment) = comment.trim :=
      Text.strip_append_left (List.forall_mem_singleton.2 (by decide)) comment
    rw [Value.trim_quoted quote, end_blank, blank_front] at value
    refine ⟨_, _, _, alone, value, ?_⟩
    constructor
    · intro _ pre post h
      have post_line : '\n' ∉ post := fun feed => line (h ▸ by simp [feed])
      apply (Assignment.trailer?_eq_none_iff post_line).1
      exact Assignment.lastClosing?_eq_none_iff.1 last pre post h
    · intro _
      exact ⟨rfl, rfl⟩
  | some p =>
    rw [last] at closing
    obtain ⟨rest, text, trails, -⟩ := Assignment.lastClosing?_eq_some_iff.1 last
    have value := ofText_enclosing legible quote encloses body_creturn tail_line tail_creturn
      closing layout
    rw [end_blank] at value
    refine ⟨_, _, _, alone, value, ?_⟩
    have rest_line : '\n' ∉ rest := fun feed => line (text ▸ by simp [feed])
    constructor
    · -- the comment that is read lacks the quote and what stands before it
      intro same
      have ne := Assignment.trim_ne_of_trailer? nonblank trails p.1
      exact absurd same.2.symm (text ▸ ne)
    · intro harmless
      apply absurd _ (harmless p.1 rest text)
      rw [← Assignment.trailer?_isSome_iff rest_line, trails]
      rfl

/-- The value has two lines and a quote that is escaped, and the comment quotes
    a word. -/
theorem ofText_inlineComment_sample :
    Key.Legible "A".toList ∧ Value.isQuote '"' = true ∧
      Segment.Encloses '"' "x \\\" y\n# z".toList ∧ '\r' ∉ "x \\\" y\n# z".toList ∧
      '\n' ∉ "it's \"so\" here ".toList ∧ '\r' ∉ "it's \"so\" here ".toList ∧
      ∃ plain : Text,
        ofText {} "A=\"x \\\" y\n# z\"".toList = .ok (ofRows [Row.ofPair "A".toList plain]) ∧
        ofText {} "A=\"x \\\" y\n# z\" # it's \"so\" here ".toList =
          .ok (ofRows [(Row.ofPair "A".toList plain).setComment "it's \"so\" here".toList]) := by
  refine ⟨by decide, by decide, by decide, by decide, by decide, by decide, ?_⟩
  obtain ⟨plain, value, text, alone, behind, same⟩ :=
    ofText_inlineComment_iff (show Key.Legible "A".toList by decide)
      (show Value.isQuote '"' = true by decide)
      (show Segment.Encloses '"' "x \\\" y\n# z".toList by decide) (by decide)
      (show '\n' ∉ "it's \"so\" here ".toList by decide) (by decide) {}
  obtain ⟨rfl, rfl⟩ := same.2 <| by
    intro pre post h
    have line : '\n' ∉ post := by
      intro feed
      have : '\n' ∈ "it's \"so\" here ".toList := h ▸ by simp [feed]
      exact absurd this (by decide)
    apply (Assignment.trailer?_eq_none_iff line).1
    exact Assignment.lastClosing?_eq_none_iff.1 (by decide) pre post h
  exact ⟨value, alone, behind⟩

/-- A comment that ends in a quoted word becomes part of the value. -/
theorem ofText_comment_swallowed :
    Key.Legible "A".toList ∧ Segment.Encloses '\'' "a".toList ∧
      ofText {} "A='a'".toList = .ok (ofRows [Row.ofPair "A".toList "a".toList]) ∧
      ofText {} "A='a' # see 'b'".toList =
        .ok (ofRows [Row.ofPair "A".toList "a' # see 'b".toList]) := by
  decide +kernel

end RowSet

end EnvFile
