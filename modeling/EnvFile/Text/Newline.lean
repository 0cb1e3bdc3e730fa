import EnvFile.Text.Basic

/-! # Line endings

    A line may end in a line feed, a carriage return, or the two together.
    `Text.normalizeNewlines` writes all three as one line feed, so that the
    rest of the library meets line feeds only. -/

namespace EnvFile

/-- Write every line ending as a line feed. -/
def Text.normalizeNewlines : Text → Text
  | [] => []
  | '\r' :: '\n' :: t => '\n' :: normalizeNewlines t
  | c :: t => (if c = '\r' then '\n' else c) :: normalizeNewlines t

namespace Text

theorem not_mem_normalizeNewlines (t : Text) : '\r' ∉ t.normalizeNewlines := by
  fun_induction normalizeNewlines t with
  | case1 => simp
  | case2 t ih => simp [ih]
  | case3 c t _ ih =>
    by_cases h : c = '\r'
    · simp [h, ih]
    · simp [h, ih, Ne.symm h]

theorem normalizeNewlines_of_not_mem {t : Text} (h : '\r' ∉ t) : t.normalizeNewlines = t := by
  induction t with
  | nil => rfl
  | cons c t ih =>
    simp only [List.mem_cons, not_or] at h
    rw [normalizeNewlines, ih h.2, if_neg (Ne.symm h.1)]
    rintro t' rfl
    exact absurd rfl h.1

end Text

end EnvFile
