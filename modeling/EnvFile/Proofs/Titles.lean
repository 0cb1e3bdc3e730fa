import EnvFile.Banner
import EnvFile.Proofs.Texts

/-! # Titles of banners

    Reading a banner undoes writing it, whatever the template.  Blanks may be
    trimmed off the line, off either half of the template and off the title,
    and either half may be blank altogether.  What is trimmed off the whole
    line then comes out of a half or out of the title, and in both cases it is
    nothing that the trimmed halves or the trimmed title hold.

    * `Text.exists_strip_append`: what trimming leaves of a text between two
      others.
    * `Banner.Template.recognises`: which lines are banners, and of what
      titles. -/

namespace EnvFile

namespace Text

variable {p : Char → Bool} {s t : Text}

/-! ## Trimming texts side by side -/

/-- Nothing is dropped of a text that begins with a kept character. -/
theorem dropWhile_append_of_kept (kept : t.dropWhile p = t) (s : Text) :
    (s ++ t).dropWhile p = s.dropWhile p ++ t := by
  rw [List.dropWhile_append]
  split
  · rename_i nothing
    rw [kept, List.isEmpty_iff.1 nothing, List.nil_append]
  · rfl

/-- Nothing is trimmed of a text that ends in a kept character. -/
theorem trimRight_append_of_kept (kept : trimRight p s = s) (t : Text) :
    trimRight p (s ++ t) = s ++ trimRight p t := by
  have reversed : s.reverse.dropWhile p = s.reverse := by
    rw [← List.reverse_eq_iff]
    exact kept
  unfold trimRight
  rw [List.reverse_append, dropWhile_append_of_kept reversed, List.reverse_append,
    List.reverse_reverse]

/-- In front of a trimmed text, either nothing is trimmed or only what stands
    there. -/
theorem exists_trimRight_append (trimmed : strip p t = t) (s : Text) :
    ∃ u, trimRight p (s ++ t) = u ++ t ∧ strip p u = strip p s := by
  rcases List.eq_nil_or_concat' t with rfl | ⟨t, c, rfl⟩
  · exact ⟨trimRight p s, by simp, strip_trimRight p s⟩
  · have kept : p c = false := (strip_eq_self_iff.1 trimmed).2 c List.getLast?_concat
    refine ⟨s, ?_, rfl⟩
    rw [← List.append_assoc, trimRight_append_cons kept]
    rfl

/-- So it is behind a trimmed text. -/
theorem exists_dropWhile_append (trimmed : strip p s = s) (t : Text) :
    ∃ u, (s ++ t).dropWhile p = s ++ u ∧ strip p u = strip p t := by
  cases s with
  | nil =>
    refine ⟨t.dropWhile p, rfl, ?_⟩
    unfold strip
    rw [List.dropWhile_idempotent]
  | cons c s =>
    have kept : p c = false := (strip_eq_self_iff.1 trimmed).1 c rfl
    exact ⟨t, List.dropWhile_cons_of_neg (by simp [kept]), rfl⟩

/-- Trimming takes nothing off trimmed texts at the two ends. -/
theorem exists_strip_between {e : Text} (hs : strip p s = s) (he : strip p e = e) (t : Text) :
    ∃ inner, strip p (s ++ t ++ e) = s ++ inner ++ e ∧ strip p inner = strip p t := by
  obtain ⟨v, right, hv⟩ := exists_trimRight_append he t
  obtain ⟨u, left, hu⟩ := exists_dropWhile_append hs v
  have begins : e.dropWhile p = e := dropWhile_of_head? (strip_eq_self_iff.1 he).1
  refine ⟨u, ?_, hu.trans hv⟩
  calc strip p (s ++ t ++ e)
      = (trimRight p (s ++ (t ++ e))).dropWhile p := by
        rw [dropWhile_trimRight, List.append_assoc]
    _ = (s ++ v ++ e).dropWhile p := by
        rw [trimRight_append_of_kept (trimRight_of_strip hs), right, List.append_assoc]
    _ = s ++ u ++ e := by
        rw [dropWhile_append_of_kept begins, left]

/-- **What trimming leaves of a text between two others:** these two trimmed,
    and between them the text but for blanks at its ends. -/
theorem exists_strip_append (p : Char → Bool) (a t b : Text) :
    ∃ inner, strip p (a ++ t ++ b) = strip p a ++ inner ++ strip p b ∧
      strip p inner = strip p t := by
  obtain ⟨a₁, a₂, ha, front, ha₂⟩ := exists_strip p a
  obtain ⟨b₁, b₂, hb, hb₁, behind⟩ := exists_strip p b
  have twice (u : Text) : strip p (strip p u) = strip p u := strip_strip_of_imp (fun _ h => h) u
  obtain ⟨inner, ends, same⟩ := exists_strip_between (twice a) (twice b) (a₂ ++ t ++ b₁)
  refine ⟨inner, ?_, ?_⟩
  · -- the outer blanks of `a` and `b` go, their inner ones are with `t` from here on
    have text : a ++ t ++ b =
        a₁ ++ (strip p a ++ (a₂ ++ t ++ b₁) ++ strip p b ++ b₂) := by
      conv_lhs => rw [ha, hb]
      simp
    rw [text, strip_append_left front, strip_append_right behind, ends]
  · rw [same, strip_append_right hb₁, strip_append_left ha₂]

end Text

/-! ## Recognition -/

namespace Banner.Template

variable {t : Template}

/-- A line is a banner if it holds the two halves of the template, all trimmed;
    what stands between them is the title. -/
theorem title?_eq_some_iff {line title : Text} :
    t.title? line = some title ↔
      ∃ inner, line.trim = t.before.trim ++ inner ++ t.after.trim ∧ title = inner.trim := by
  unfold title?
  simp only [Option.bind_eq_some_iff, Option.map_eq_some_iff, Text.after?_eq_some_iff,
    Text.before?_eq_some_iff]
  constructor
  · rintro ⟨rest, line_eq, inner, rfl, rfl⟩
    exact ⟨inner, by rw [← line_eq, List.append_assoc], rfl⟩
  · rintro ⟨inner, line_eq, rfl⟩
    exact ⟨inner ++ t.after.trim, by rw [line_eq, List.append_assoc], inner, rfl, rfl⟩

/-- A banner has the title that it was written for. -/
theorem title?_render (t : Template) (title : Text) :
    t.title? (t.render title) = some title.trim := by
  obtain ⟨inner, line, same⟩ := Text.exists_strip_append isBlank t.before title t.after
  exact title?_eq_some_iff.2 ⟨inner, line, same.symm⟩

/-- **Recognition is the converse of writing, for every template.**  A banner
    has the title that it was written for, but for blanks around it.  And a
    line is a banner exactly if, trimmed, it is the two trimmed halves of the
    template with something between them, which is the title when trimmed. -/
theorem recognises (t : Template) :
    (∀ title, t.title? (t.render title) = some title.trim) ∧
      ∀ line title, t.title? line = some title ↔
        ∃ inner, line.trim = t.before.trim ++ inner ++ t.after.trim ∧ title = inner.trim :=
  ⟨t.title?_render, fun _ _ => title?_eq_some_iff⟩

/-- Halves that are blank or missing, and a title that holds them. -/
example :
    Template.title? ⟨" \t".toList, "#".toList⟩ "\u00a0 # x # #\n".toList = some "# x #".toList ∧
      Template.title? ⟨"#-".toList, "-#".toList⟩ "#-#".toList = none := by
  decide

end Banner.Template

end EnvFile
