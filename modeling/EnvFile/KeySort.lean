import EnvFile.Text.Order

/-! # Sorting by a key

    A list of things is sorted by the text that each carries as its key.  The
    sort is stable: things with one key keep their order.

    * `sortOn_perm`: nothing is lost or doubled.
    * `sortOn_pairwise`: no thing precedes one before it.
    * `filter_sortOn`: the things of one key keep their order. -/

namespace EnvFile

variable {α : Type} {key : α → Text}

/-- Put `a` before the first thing in `l` that does not precede it. -/
def insertOn (key : α → Text) (a : α) : List α → List α
  | [] => [a]
  | b :: l => if (key b).precedes (key a) then b :: insertOn key a l else a :: b :: l

/-- Sort by key. -/
def sortOn (key : α → Text) (l : List α) : List α :=
  l.foldr (insertOn key) []

theorem insertOn_perm (a : α) (l : List α) : (insertOn key a l).Perm (a :: l) := by
  induction l with
  | nil => exact .refl _
  | cons b l ih =>
    rw [insertOn]
    split
    · exact (ih.cons b).trans (.swap a b l)
    · exact .refl _

/-- Sorting keeps what is in a list. -/
theorem sortOn_perm (l : List α) : (sortOn key l).Perm l := by
  induction l with
  | nil => exact .refl _
  | cons a l ih => exact (insertOn_perm a _).trans (ih.cons a)

theorem insertOn_pairwise (a : α) {l : List α}
    (h : l.Pairwise fun x y => ¬ (key y).precedes (key x) = true) :
    (insertOn key a l).Pairwise fun x y => ¬ (key y).precedes (key x) = true := by
  induction l with
  | nil => exact List.pairwise_singleton _ _
  | cons b l ih =>
    have ⟨hb, hl⟩ := List.pairwise_cons.1 h
    rw [insertOn]
    split
    · rename_i hba
      refine List.pairwise_cons.2 ⟨fun x hx => ?_, ih hl⟩
      rcases List.mem_cons.1 ((insertOn_perm a l).mem_iff.1 hx) with rfl | hx
      · exact Text.precedes_asymm hba
      · exact hb x hx
    · rename_i hba
      refine List.pairwise_cons.2 ⟨fun x hx => ?_, h⟩
      rcases List.mem_cons.1 hx with rfl | hx
      · exact hba
      · intro hxa
        rcases Text.precedes_trichotomy (key a) (key b) with hab | hab | hab
        · exact hb x hx (Text.precedes_trans hxa hab)
        · exact hb x hx (hab ▸ hxa)
        · exact hba hab

/-- In a sorted list nothing precedes what stands before it. -/
theorem sortOn_pairwise (l : List α) :
    (sortOn key l).Pairwise fun x y => ¬ (key y).precedes (key x) = true := by
  induction l with
  | nil => exact .nil
  | cons a l ih => exact insertOn_pairwise a ih

theorem filter_insertOn (k : Text) (a : α) (l : List α) :
    (insertOn key a l).filter (key · == k) = (a :: l).filter (key · == k) := by
  induction l with
  | nil => rfl
  | cons b l ih =>
    rw [insertOn]
    split
    · rename_i hba
      have hne : key b ≠ key a := fun e => Text.precedes_irrefl _ (e ▸ hba)
      by_cases ha : key a = k
      · have hb : ¬ key b = k := fun e => hne (e.trans ha.symm)
        simp [ih, ha, hb]
      · simp [List.filter_cons, ih, ha]
    · rfl

/-- The things of one key come out in the order they went in. -/
theorem filter_sortOn (k : Text) (l : List α) :
    (sortOn key l).filter (key · == k) = l.filter (key · == k) := by
  induction l with
  | nil => rfl
  | cons a l ih =>
    have := @filter_insertOn α key k a (sortOn key l)
    rw [sortOn] at this ih ⊢
    rw [List.foldr_cons, this, List.filter_cons, List.filter_cons, ih]

end EnvFile
