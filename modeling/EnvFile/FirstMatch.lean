/-! # Changing the first match

    Blocks and documents are lists in which a row or block is found by its
    name.  Looking up and removing the first match are `List.find?` and
    `List.eraseP`; this module adds changing it in place. -/

namespace EnvFile

variable {α : Type}

/-- Change the first element of a list that satisfies `p`. -/
def updateFirst (p : α → Bool) (f : α → α) : List α → List α
  | [] => []
  | a :: l => if p a then f a :: l else a :: updateFirst p f l

/-- A change that leaves the first match alone changes nothing. -/
theorem updateFirst_eq_self {p : α → Bool} {f : α → α} {l : List α}
    (h : ∀ a, l.find? p = some a → f a = a) : updateFirst p f l = l := by
  induction l with
  | nil => rfl
  | cons a l ih =>
    rw [updateFirst]
    cases ha : p a with
    | true => simp [h a (by simp [ha])]
    | false => simp [ih fun b hb => h b (by simpa [ha] using hb)]

theorem updateFirst_append_cons {p : α → Bool} {f : α → α} {above below : List α} {a : α}
    (before : ∀ b ∈ above, p b = false) (ha : p a = true) :
    updateFirst p f (above ++ a :: below) = above ++ f a :: below := by
  induction above with
  | nil => rw [List.nil_append, updateFirst, if_pos ha, List.nil_append]
  | cons b above ih =>
    have ⟨hb, before⟩ := List.forall_mem_cons.1 before
    rw [List.cons_append, updateFirst, if_neg (by simp [hb]), ih before, List.cons_append]

theorem mem_updateFirst {p : α → Bool} {f : α → α} {l : List α} {a : α}
    (h : a ∈ updateFirst p f l) : a ∈ l ∨ ∃ b ∈ l, f b = a := by
  induction l with
  | nil => cases h
  | cons b l ih =>
    rw [updateFirst] at h
    split at h
    · rcases List.mem_cons.1 h with rfl | h
      · exact .inr ⟨b, List.mem_cons_self, rfl⟩
      · exact .inl (List.mem_cons_of_mem b h)
    · rcases List.mem_cons.1 h with rfl | h
      · exact .inl List.mem_cons_self
      · exact (ih h).imp (List.mem_cons_of_mem b)
          fun ⟨c, hc, e⟩ => ⟨c, List.mem_cons_of_mem b hc, e⟩

/-- An element is still there, or it was changed. -/
theorem updateFirst_of_mem {p : α → Bool} {l : List α} {a : α} (h : a ∈ l) (f : α → α) :
    a ∈ updateFirst p f l ∨ f a ∈ updateFirst p f l := by
  induction l with
  | nil => cases h
  | cons b l ih =>
    rw [updateFirst]
    rcases List.mem_cons.1 h with rfl | h
    · split
      · exact .inr List.mem_cons_self
      · exact .inl List.mem_cons_self
    · split
      · exact .inl (List.mem_cons_of_mem _ h)
      · exact (ih h).imp (List.mem_cons_of_mem b) (List.mem_cons_of_mem b)

/-- Changes that agree on every match are one. -/
theorem updateFirst_congr {p : α → Bool} {f g : α → α} (h : ∀ a, p a = true → f a = g a)
    (l : List α) : updateFirst p f l = updateFirst p g l := by
  induction l with
  | nil => rfl
  | cons a l ih =>
    rw [updateFirst, updateFirst]
    split
    · rename_i ha
      rw [h a ha]
    · rw [ih]

/-- If the change keeps `p`, the first match afterwards is the changed one. -/
theorem find?_updateFirst {p : α → Bool} {f : α → α} (hf : ∀ a, p a = true → p (f a) = true)
    (l : List α) : (updateFirst p f l).find? p = (l.find? p).map f := by
  induction l with
  | nil => rfl
  | cons a l ih =>
    rw [updateFirst]
    cases ha : p a with
    | true => simp [ha, hf a ha]
    | false => simp [ha, ih]

/-- A quantity that the change keeps is the same for every element. -/
theorem map_updateFirst {β : Type} {p : α → Bool} {f : α → α} {g : α → β}
    (h : ∀ a, p a = true → g (f a) = g a) (l : List α) : (updateFirst p f l).map g = l.map g := by
  induction l with
  | nil => rfl
  | cons a l ih =>
    rw [updateFirst]
    split
    · rename_i ha
      simp [h a ha]
    · simp [ih]

theorem filterMap_updateFirst {β : Type} {p : α → Bool} {f : α → α} {g : α → Option β}
    (h : ∀ a, p a = true → g (f a) = g a) (l : List α) :
    (updateFirst p f l).filterMap g = l.filterMap g := by
  induction l with
  | nil => rfl
  | cons a l ih =>
    rw [updateFirst]
    split
    · rename_i ha
      rw [List.filterMap_cons, List.filterMap_cons, h a ha]
    · rw [List.filterMap_cons, List.filterMap_cons, ih]

theorem filterMap_eraseP {β : Type} {p : α → Bool} {g : α → Option β}
    (h : ∀ a, p a = true → g a = none) (l : List α) :
    (l.eraseP p).filterMap g = l.filterMap g := by
  induction l with
  | nil => rfl
  | cons a l ih =>
    cases ha : p a with
    | true => rw [List.eraseP_cons_of_pos ha, List.filterMap_cons_none (h a ha)]
    | false =>
      rw [List.eraseP_cons_of_neg (by simp [ha]), List.filterMap_cons, List.filterMap_cons, ih]

/-- Changing the first match commutes with a map that carries the change. -/
theorem updateFirst_map {β : Type} {p : β → Bool} {f : β → β} {q : α → Bool} {e : α → α}
    (i : α → β) (hp : ∀ a, p (i a) = q a) (hf : ∀ a, f (i a) = i (e a)) (l : List α) :
    updateFirst p f (l.map i) = (updateFirst q e l).map i := by
  induction l with
  | nil => rfl
  | cons a l ih =>
    rw [List.map_cons, updateFirst, updateFirst, hp, hf, ih]
    split <;> rfl

/-! ## Seen through a filter

    A filter that agrees on an element and on what it is changed to sees the
    change or does not see it. -/

theorem filter_updateFirst {p q : α → Bool} {f : α → α}
    (h : ∀ a, p a = true → q a = true ∧ q (f a) = true) (l : List α) :
    (updateFirst p f l).filter q = updateFirst p f (l.filter q) := by
  induction l with
  | nil => rfl
  | cons a l ih =>
    rw [updateFirst]
    cases ha : p a with
    | true => simp [(h a ha).1, (h a ha).2, updateFirst, ha]
    | false => cases hq : q a <;> simp [hq, ih, updateFirst, ha]

theorem filter_updateFirst_of_not {p q : α → Bool} {f : α → α} {l : List α}
    (h : ∀ a ∈ l, p a = true → q a = false ∧ q (f a) = false) :
    (updateFirst p f l).filter q = l.filter q := by
  induction l with
  | nil => rfl
  | cons a l ih =>
    rw [updateFirst]
    cases ha : p a with
    | true => simp [(h a List.mem_cons_self ha).1, (h a List.mem_cons_self ha).2]
    | false => simp [List.filter_cons, ih fun b hb => h b (List.mem_cons_of_mem a hb)]

theorem filter_eraseP {p q : α → Bool} (h : ∀ a, p a = true → q a = true) (l : List α) :
    (l.eraseP p).filter q = (l.filter q).eraseP p := by
  induction l with
  | nil => rfl
  | cons a l ih =>
    cases ha : p a with
    | true => simp [ha, h a ha]
    | false => cases hq : q a <;> simp [ha, hq, ih]

theorem filter_eraseP_of_not {p q : α → Bool} (h : ∀ a, p a = true → q a = false) (l : List α) :
    (l.eraseP p).filter q = l.filter q := by
  induction l with
  | nil => rfl
  | cons a l ih =>
    cases ha : p a with
    | true => simp [ha, h a ha]
    | false => simp [ha, List.filter_cons, ih]

end EnvFile
