import EnvFile.Text.Order

/-! # Catalogs

    A catalog files things under a key that each of them carries, at most one
    to a key, in ascending order of the keys.  Because the order is part of
    the type, two catalogs that answer every lookup alike are equal
    (`Catalog.ext_find?`): how a catalog came about cannot be seen in it.

    A `Dictionary` is a catalog of pairs, filed under their first component.

    * `find?_insert_self`, `find?_insert_ne`: insertion changes one key only.
    * `mem_iff_find?`: what a catalog holds is what its lookups answer. -/

namespace EnvFile

/-- The things in `l` come in strictly ascending order of their keys. -/
def Catalog.Ascending {α : Type} (key : α → Text) (l : List α) : Prop :=
  l.Pairwise fun a b => (key a).precedes (key b) = true

/-- Things in strictly ascending order of their keys. -/
structure Catalog {α : Type} (key : α → Text) where
  /-- Everything filed, in order. -/
  toList : List α
  ascending : Catalog.Ascending key toList

namespace Catalog

variable {α : Type} {key : α → Text}

theorem ext {c d : Catalog key} (h : c.toList = d.toList) : c = d := by
  cases c; cases d; cases h; rfl

instance [DecidableEq α] : DecidableEq (Catalog key) := fun c d =>
  decidable_of_iff (c.toList = d.toList) ⟨ext, fun h => h ▸ rfl⟩

/-! ## Operations -/

/-- The catalog that holds nothing. -/
def empty : Catalog key :=
  ⟨[], List.Pairwise.nil⟩

instance : Inhabited (Catalog key) := ⟨empty⟩

/-- The number of things filed. -/
def size (c : Catalog key) : Nat :=
  c.toList.length

/-- What is filed under `k`. -/
def find? (c : Catalog key) (k : Text) : Option α :=
  c.toList.find? fun a => key a == k

/-- Is anything filed under `k`? -/
def contains (c : Catalog key) (k : Text) : Bool :=
  (c.find? k).isSome

/-- Put `a` in its place, or in the place of the thing with its key. -/
def place (key : α → Text) (a : α) : List α → List α
  | [] => [a]
  | b :: l =>
    if (key a).precedes (key b) then a :: b :: l
    else if key a = key b then a :: l
    else b :: place key a l

theorem mem_place {a x : α} {l : List α} (h : x ∈ place key a l) : x = a ∨ x ∈ l := by
  induction l with
  | nil => simpa [place] using h
  | cons b l ih =>
    simp only [place] at h
    split at h
    · simpa using h
    · split at h
      · rcases List.mem_cons.1 h with h | h
        · exact .inl h
        · exact .inr (List.mem_cons_of_mem b h)
      · rcases List.mem_cons.1 h with h | h
        · exact .inr (h ▸ List.mem_cons_self)
        · exact (ih h).imp id (List.mem_cons_of_mem b)

theorem ascending_place (a : α) {l : List α} (h : Ascending key l) :
    Ascending key (place key a l) := by
  induction l with
  | nil => exact List.pairwise_singleton _ _
  | cons b l ih =>
    have ⟨hb, hl⟩ := List.pairwise_cons.1 h
    simp only [place]
    split
    · rename_i hab
      refine List.pairwise_cons.2 ⟨fun x hx => ?_, h⟩
      rcases List.mem_cons.1 hx with rfl | hx
      · exact hab
      · exact Text.precedes_trans hab (hb x hx)
    · split
      · rename_i hab
        exact List.pairwise_cons.2 ⟨fun x hx => hab ▸ hb x hx, hl⟩
      · rename_i hlt hne
        have hba : (key b).precedes (key a) = true :=
          ((Text.precedes_trichotomy (key a) (key b)).resolve_left hlt).resolve_left hne
        refine List.pairwise_cons.2 ⟨fun x hx => ?_, ih hl⟩
        rcases mem_place hx with rfl | hx
        · exact hba
        · exact hb x hx

/-- File `a`, replacing what was filed under its key. -/
def insert (c : Catalog key) (a : α) : Catalog key :=
  ⟨place key a c.toList, ascending_place a c.ascending⟩

/-- File everything in `l`; of two things with one key the later stays. -/
def ofList (l : List α) : Catalog key :=
  l.foldl insert empty

/-! ## Lookups determine a catalog -/

theorem key_eq_of_find? {c : Catalog key} {k : Text} {a : α} (h : c.find? k = some a) :
    key a = k := by
  simpa using List.find?_some h

theorem mem_of_find? {c : Catalog key} {k : Text} {a : α} (h : c.find? k = some a) :
    a ∈ c.toList :=
  List.mem_of_find?_eq_some h

theorem find?_of_mem {l : List α} (h : Ascending key l) {a : α} (ha : a ∈ l) :
    l.find? (fun x => key x == key a) = some a := by
  induction l with
  | nil => cases ha
  | cons b l ih =>
    have ⟨hb, hl⟩ := List.pairwise_cons.1 h
    rcases List.mem_cons.1 ha with rfl | ha
    · simp
    · have hne : key b ≠ key a := fun e => Text.precedes_irrefl (key a) (e ▸ hb a ha)
      rw [List.find?_cons_of_neg (by simpa using hne)]
      exact ih hl ha

theorem mem_iff_find? {c : Catalog key} {a : α} :
    a ∈ c.toList ↔ c.find? (key a) = some a :=
  ⟨find?_of_mem c.ascending, mem_of_find?⟩

theorem find?_place_self (a : α) (l : List α) :
    (place key a l).find? (fun x => key x == key a) = some a := by
  induction l with
  | nil => simp [place]
  | cons b l ih =>
    simp only [place]
    split
    · simp
    · split
      · simp
      · rename_i hne
        rw [List.find?_cons_of_neg (by simpa using fun e => hne e.symm)]
        exact ih

theorem find?_place_ne {a : α} {k : Text} (h : key a ≠ k) (l : List α) :
    (place key a l).find? (fun x => key x == k) = l.find? fun x => key x == k := by
  induction l with
  | nil => simp [place, h]
  | cons b l ih =>
    simp only [place]
    split
    · simp [h]
    · split
      · rename_i hab
        simp [h, ← hab]
      · simp only [List.find?_cons, ih]

@[simp] theorem find?_insert_self (c : Catalog key) (a : α) :
    (c.insert a).find? (key a) = some a :=
  find?_place_self a c.toList

theorem find?_insert_ne (c : Catalog key) {a : α} {k : Text} (h : key a ≠ k) :
    (c.insert a).find? k = c.find? k :=
  find?_place_ne h c.toList

theorem find?_foldl_insert (c : Catalog key) (l : List α) (k : Text) :
    (l.foldl insert c).find? k = (l.filter fun a => key a == k).getLast?.or (c.find? k) := by
  induction l generalizing c with
  | nil => rfl
  | cons a l ih =>
    rw [List.foldl_cons, ih]
    by_cases h : key a = k
    · subst h
      rw [find?_insert_self, List.filter_cons_of_pos (by simp), List.getLast?_cons, Option.or_some,
        Option.some_or]
    · rw [find?_insert_ne c h, List.filter_cons_of_neg (by simpa using h)]

/-- Of the things with one key the last one is filed. -/
theorem find?_ofList (l : List α) (k : Text) :
    (ofList l : Catalog key).find? k = (l.filter fun a => key a == k).getLast? :=
  (find?_foldl_insert empty l k).trans Option.or_none

theorem Ascending.eq_of_mem_iff {l m : List α} (hl : Ascending key l) (hm : Ascending key m)
    (h : ∀ a, a ∈ l ↔ a ∈ m) : l = m := by
  induction l generalizing m with
  | nil =>
    cases m with
    | nil => rfl
    | cons b m => exact absurd ((h b).2 List.mem_cons_self) List.not_mem_nil
  | cons a l ih =>
    cases m with
    | nil => exact absurd ((h a).1 List.mem_cons_self) List.not_mem_nil
    | cons b m =>
      have ⟨ha, hl'⟩ := List.pairwise_cons.1 hl
      have ⟨hb, hm'⟩ := List.pairwise_cons.1 hm
      have hab : a = b := by
        rcases List.mem_cons.1 ((h a).1 List.mem_cons_self) with e | hm
        · exact e
        rcases List.mem_cons.1 ((h b).2 List.mem_cons_self) with e | hl
        · exact e.symm
        · exact absurd (hb a hm) (Text.precedes_asymm (ha b hl))
      subst hab
      congr 1
      refine ih hl' hm' fun x => ⟨fun hx => ?_, fun hx => ?_⟩
      · rcases List.mem_cons.1 ((h x).1 (List.mem_cons_of_mem a hx)) with rfl | hx'
        · exact absurd (ha x hx) (Text.precedes_irrefl _)
        · exact hx'
      · rcases List.mem_cons.1 ((h x).2 (List.mem_cons_of_mem a hx)) with rfl | hx'
        · exact absurd (hb x hx) (Text.precedes_irrefl _)
        · exact hx'

/-- Catalogs that answer every lookup alike are equal. -/
theorem ext_find? {c d : Catalog key} (h : ∀ k, c.find? k = d.find? k) : c = d :=
  ext <| c.ascending.eq_of_mem_iff d.ascending fun a => by
    rw [mem_iff_find?, mem_iff_find?, h]

end Catalog

/-! ## Dictionaries -/

/-- Values filed under texts. -/
abbrev Dictionary (α : Type) : Type :=
  Catalog (Prod.fst : Text × α → Text)

namespace Dictionary

variable {α : Type}

/-- The value of `k`. -/
def get? (d : Dictionary α) (k : Text) : Option α :=
  (d.find? k).map Prod.snd

/-- Give `k` the value `v`. -/
def set (d : Dictionary α) (k : Text) (v : α) : Dictionary α :=
  d.insert (k, v)

/-- Give `k` the value `v` unless it has one. -/
def setNew (d : Dictionary α) (k : Text) (v : α) : Dictionary α :=
  if d.contains k then d else d.set k v

@[simp] theorem get?_set_self (d : Dictionary α) (k : Text) (v : α) :
    get? (set d k v) k = some v := by
  have := Catalog.find?_insert_self d (k, v)
  simp only [get?, set]
  rw [this, Option.map_some]

theorem get?_set_ne (d : Dictionary α) {k l : Text} (v : α) (h : k ≠ l) :
    get? (set d k v) l = get? d l := by
  simp only [get?, set]
  rw [Catalog.find?_insert_ne d (by simpa using h)]

theorem get?_set (d : Dictionary α) (k l : Text) (v : α) :
    get? (set d k v) l = if k = l then some v else get? d l := by
  by_cases h : k = l
  · rw [if_pos h, ← h, get?_set_self]
  · rw [if_neg h, get?_set_ne d v h]

/-- Dictionaries that answer every lookup alike are equal. -/
theorem ext_get? {c d : Dictionary α} (h : ∀ k, c.get? k = d.get? k) : c = d := by
  have found : ∀ (d : Dictionary α) (k : Text), d.find? k = (d.get? k).map fun v => (k, v) := by
    intro d k
    unfold get?
    cases hp : Catalog.find? d k with
    | none => rfl
    | some p => rw [← Catalog.key_eq_of_find? hp]; rfl
  exact Catalog.ext_find? fun k => by rw [found c, found d, h]

end Dictionary

end EnvFile
