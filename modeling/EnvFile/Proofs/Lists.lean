import Mathlib.Data.List.Induction
import Mathlib.Data.List.Nodup
import Mathlib.Data.List.TakeWhile

/-! # Lists

    What the theory of the library needs of lists beyond the library of the
    language: first occurrences, pieces cut out by a class, and keys that no
    two elements share. -/

namespace EnvFile

variable {α β : Type}

/-! ## First occurrences -/

section Dups

variable [BEq α] [LawfulBEq α]

theorem eraseDups_concat (l : List α) (a : α) :
    (l ++ [a]).eraseDups = if a ∈ l then l.eraseDups else l.eraseDups ++ [a] := by
  rw [List.eraseDups_append]
  by_cases h : a ∈ l
  · have : [a].removeAll l = [] := by simp [List.removeAll, h]
    simp [this, h]
  · have : [a].removeAll l = [a] := by simp [List.removeAll, h]
    simp [this, h, List.eraseDups_cons]

theorem nodup_eraseDups (l : List α) : l.eraseDups.Nodup := by
  induction l using List.reverseRecOn with
  | nil => exact .nil
  | append_singleton l a ih =>
    rw [eraseDups_concat]
    by_cases h : a ∈ l
    · rwa [if_pos h]
    · rw [if_neg h]
      have hn : a ∉ l.eraseDups := by rwa [List.mem_eraseDups]
      simpa using List.Nodup.concat hn ih

theorem eraseDups_of_nodup {l : List α} (h : l.Nodup) : l.eraseDups = l := by
  induction l using List.reverseRecOn with
  | nil => rfl
  | append_singleton l a ih =>
    obtain ⟨hl, -, ha⟩ := List.nodup_append.1 h
    have hn : a ∉ l := fun hm => ha a hm a (by simp) rfl
    rw [eraseDups_concat, if_neg hn, ih hl]

end Dups

/-! ## Pieces -/

/-- The elements of no named class, followed by the classes one by one, are
    the elements of the list. -/
theorem perm_filter_append_flatMap [BEq β] [LawfulBEq β] (class? : α → Option β) {names : List β}
    (h : names.Nodup) (l : List α) :
    (l.filter (fun a => !(class? a).any names.contains) ++
      names.flatMap fun n => l.filter fun a => class? a == some n).Perm l := by
  induction names generalizing l with
  | nil =>
    have : ∀ a, (class? a).any [].contains = false := fun a => by cases class? a <;> rfl
    simp [this]
  | cons n names ih =>
    -- without the class of `n`, the list is cut by the other names
    have ⟨hn, hnames⟩ := List.nodup_cons.1 h
    have ih' := ih hnames (l.filter fun a => !(class? a == some n))
    have rest : (l.filter fun a => !(class? a == some n)).filter
        (fun a => !(class? a).any names.contains) =
        l.filter fun a => !(class? a).any (n :: names).contains := by
      rw [List.filter_filter]
      refine List.filter_congr fun a _ => ?_
      cases class? a with
      | none => rfl
      | some m => by_cases hm : m = n <;> simp [hm]
    have pieces : (names.flatMap fun m => (l.filter fun a => !(class? a == some n)).filter
        fun a => class? a == some m) = names.flatMap fun m => l.filter fun a => class? a == some m := by
      refine List.flatMap_congr fun m hm => ?_
      have hne : m ≠ n := fun e => hn (e ▸ hm)
      rw [List.filter_filter]
      refine List.filter_congr fun a _ => ?_
      by_cases ha : class? a = some m <;> simp [ha, hne]
    rw [rest, pieces] at ih'
    rw [List.flatMap_cons]
    -- bring the class of `n` to the front; what is left is the induction hypothesis
    have front := List.perm_append_comm_assoc
      (l.filter fun a => !(class? a).any (n :: names).contains)
      (l.filter fun a => class? a == some n)
      (names.flatMap fun m => l.filter fun a => class? a == some m)
    exact (front.trans (ih'.append_left _)).trans (List.filter_append_perm _ l)

/-- Of the elements with a property there is a last one. -/
theorem exists_last {p : α → Prop} {l : List α} (h : ∃ a ∈ l, p a) :
    ∃ pre a post, l = pre ++ a :: post ∧ p a ∧ ∀ b ∈ post, ¬ p b := by
  induction l using List.reverseRecOn with
  | nil =>
    obtain ⟨a, ha, -⟩ := h
    cases ha
  | append_singleton l b ih =>
    by_cases hb : p b
    · exact ⟨l, b, [], rfl, hb, by simp⟩
    · have : ∃ a ∈ l, p a := by
        obtain ⟨a, ha, hp⟩ := h
        rcases List.mem_append.1 ha with ha | ha
        · exact ⟨a, ha, hp⟩
        · exact absurd (List.mem_singleton.1 ha ▸ hp) hb
      obtain ⟨pre, a, post, rfl, ha, hpost⟩ := ih this
      refine ⟨pre, a, post ++ [b], by simp, ha, fun c hc => ?_⟩
      rcases List.mem_append.1 hc with hc | hc
      · exact hpost c hc
      · exact List.mem_singleton.1 hc ▸ hb

/-! ## Runs -/

/-- A run over things that each change nothing changes nothing. -/
theorem foldl_eq_self {f : α → β → α} {a : α} {l : List β} (h : ∀ b ∈ l, f a b = a) :
    l.foldl f a = a := by
  induction l with
  | nil => rfl
  | cons b l ih =>
    rw [List.foldl_cons, h b List.mem_cons_self]
    exact ih fun c hc => h c (List.mem_cons_of_mem b hc)

/-! ## Separators -/

/-- Separators that come to nothing may go. -/
theorem flatMap_intercalate {f : α → List β} {sep : List α} (h : sep.flatMap f = [])
    (lss : List (List α)) :
    (List.intercalate sep lss).flatMap f = lss.flatten.flatMap f := by
  induction lss with
  | nil => rfl
  | cons ls lss ih =>
    cases lss with
    | nil => simp
    | cons ms lss =>
      rw [List.intercalate_cons_cons, List.flatMap_append, List.flatMap_append, h, ih,
        List.append_nil, ← List.flatMap_append, ← List.flatten_cons]

/-! ## Distinct keys -/

/-- Where keys are distinct, the elements of one key are at most one. -/
theorem filter_eq_singleton [BEq β] [LawfulBEq β] {key : α → β} {l : List α} (h : (l.map key).Nodup)
    {a : α} (ha : a ∈ l) : l.filter (fun b => key b == key a) = [a] := by
  induction l with
  | nil => cases ha
  | cons b l ih =>
    obtain ⟨hb, hl⟩ := List.nodup_cons.1 h
    rcases List.mem_cons.1 ha with rfl | ha
    · have : l.filter (fun b => key b == key a) = [] := by
        refine List.filter_eq_nil_iff.2 fun c hc hk => hb ?_
        rw [← beq_iff_eq.1 hk]
        exact List.mem_map_of_mem hc
      rw [List.filter_cons_of_pos (by simp), this]
    · have hne : key b ≠ key a := fun e => hb (e ▸ List.mem_map_of_mem ha)
      rw [List.filter_cons_of_neg (by simpa using hne), ih hl ha]

/-- Where keys are distinct, one key has no element or one. -/
theorem filter_key_cases [BEq β] [LawfulBEq β] {key : α → β} {l : List α} (h : (l.map key).Nodup)
    (k : β) :
    l.filter (fun a => key a == k) = [] ∨ ∃ a ∈ l, l.filter (fun a => key a == k) = [a] := by
  by_cases hk : k ∈ l.map key
  · obtain ⟨a, ha, rfl⟩ := List.mem_map.1 hk
    exact .inr ⟨a, ha, filter_eq_singleton h ha⟩
  · left
    apply List.filter_eq_nil_iff.2
    intro a ha e
    exact hk (List.mem_map.2 ⟨a, ha, beq_iff_eq.1 e⟩)

/-- Where keys are distinct, the order does not show in the elements of one
    key. -/
theorem filter_key_perm [BEq β] [LawfulBEq β] {key : α → β} {l m : List α} (perm : l.Perm m)
    (h : (l.map key).Nodup) (k : β) :
    l.filter (fun a => key a == k) = m.filter (fun a => key a == k) := by
  have filtered := perm.filter fun a => key a == k
  rcases filter_key_cases h k with none | ⟨a, -, one⟩
  · rw [none] at filtered ⊢
    exact (List.nil_perm.1 filtered).symm
  · rw [one] at filtered ⊢
    exact List.singleton_perm.1 filtered

end EnvFile
