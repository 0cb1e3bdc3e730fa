import EnvFile.Text.Basic

/-! # The order of texts

    Texts are ordered by code point: the first characters that differ decide,
    and the beginning of a text precedes it.  This is a strict total order
    (`precedes_irrefl`, `precedes_trans`, `precedes_trichotomy`). -/

namespace EnvFile.Text

/-- Does `s` come before `t`? -/
def precedes : Text → Text → Bool
  | _, [] => false
  | [], _ :: _ => true
  | c :: s, d :: t => decide (c.toNat < d.toNat) || (c == d && precedes s t)

theorem precedes_cons {c d : Char} {s t : Text} :
    precedes (c :: s) (d :: t) = true ↔ c.toNat < d.toNat ∨ c = d ∧ precedes s t = true := by
  simp [precedes]

@[simp] theorem not_precedes_nil (s : Text) : precedes s [] = false := by
  cases s <;> rfl

theorem precedes_irrefl (s : Text) : ¬ precedes s s = true := by
  induction s with
  | nil => simp
  | cons c s ih =>
    rw [precedes_cons]
    rintro (h | ⟨-, h⟩)
    · exact Nat.lt_irrefl _ h
    · exact ih h

theorem precedes_trans {s t u : Text} (h : precedes s t = true) (h' : precedes t u = true) :
    precedes s u = true := by
  induction s generalizing t u with
  | nil =>
    cases u with
    | nil => simp at h'
    | cons e u => rfl
  | cons c s ih =>
    cases t with
    | nil => simp at h
    | cons d t =>
      cases u with
      | nil => simp at h'
      | cons e u =>
        rw [precedes_cons] at h h' ⊢
        rcases h with h | ⟨rfl, h⟩
        · rcases h' with h' | ⟨rfl, -⟩
          · exact .inl (Nat.lt_trans h h')
          · exact .inl h
        · rcases h' with h' | ⟨rfl, h'⟩
          · exact .inl h'
          · exact .inr ⟨rfl, ih h h'⟩

/-- Two texts are equal, or one of them precedes the other. -/
theorem precedes_trichotomy (s t : Text) :
    precedes s t = true ∨ s = t ∨ precedes t s = true := by
  induction s generalizing t with
  | nil =>
    cases t with
    | nil => exact .inr (.inl rfl)
    | cons d t => exact .inl rfl
  | cons c s ih =>
    cases t with
    | nil => exact .inr (.inr rfl)
    | cons d t =>
      simp only [precedes_cons]
      rcases Nat.lt_trichotomy c.toNat d.toNat with h | h | h
      · exact .inl (.inl h)
      · have hcd : c = d := Char.toNat_inj.1 h
        subst hcd
        rcases ih t with h | rfl | h
        · exact .inl (.inr ⟨rfl, h⟩)
        · exact .inr (.inl rfl)
        · exact .inr (.inr (.inr ⟨rfl, h⟩))
      · exact .inr (.inr (.inl h))

theorem precedes_asymm {s t : Text} (h : precedes s t = true) : ¬ precedes t s = true :=
  fun h' => precedes_irrefl s (precedes_trans h h')

end EnvFile.Text
