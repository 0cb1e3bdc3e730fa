import EnvFile.Text.Basic

/-! # Keys

    The key of a variable is a text over upper-case letters, digits, `.` and
    `_` without two neighbouring underscores.  `Key.normalize` brings any text
    into this form.

    A key may name a group and a member of it: the text before its first
    underscore and the text after.  `Key.split?` and `Key.join` take the two
    apart and put them together (`split?_eq_some_iff`). -/

namespace EnvFile.Key

/-! ## Normal form -/

/-- The character that stands for `c` in a key: a letter in upper case, a
    digit or a period as it is, and an underscore for anything else. -/
def canonicalChar (c : Char) : Char :=
  if c.isAlphanum || c == '.' then c.toUpper else '_'

/-- Shorten every run of underscores to one. -/
def collapse : Text → Text
  | [] => []
  | c :: t => if c == '_' && t.head? == some '_' then collapse t else c :: collapse t

/-- The key that a text stands for. -/
def normalize (t : Text) : Text :=
  collapse (t.map canonicalChar)

theorem head?_collapse (t : Text) : (collapse t).head? = t.head? := by
  induction t with
  | nil => rfl
  | cons c t ih =>
    rw [collapse]
    split
    · rename_i h
      simp only [Bool.and_eq_true, beq_iff_eq] at h
      rw [ih, h.2, h.1, List.head?_cons]
    · rfl

/-- A text without neighbouring underscores has no run to shorten. -/
theorem collapse_collapse (t : Text) : collapse (collapse t) = collapse t := by
  induction t with
  | nil => rfl
  | cons c t ih =>
    by_cases h : (c == '_' && t.head? == some '_') = true
    · rw [collapse, if_pos h]; exact ih
    · rw [collapse, if_neg h, collapse, head?_collapse, if_neg h, ih]

theorem mem_of_mem_collapse {c : Char} {t : Text} (h : c ∈ collapse t) : c ∈ t := by
  induction t with
  | nil => exact h
  | cons d t ih =>
    rw [collapse] at h
    split at h
    · exact List.mem_cons_of_mem d (ih h)
    · exact (List.mem_cons.1 h).elim (fun e => e ▸ List.mem_cons_self)
        fun h => List.mem_cons_of_mem d (ih h)

/-! ## Groups and members -/

/-- The group and the member that a key names.  A key without an underscore,
    or with one in front, names none. -/
def split? (k : Text) : Option (Text × Text) :=
  match k.takeWhile (· != '_'), k.dropWhile (· != '_') with
  | g :: group, _ :: member => some (g :: group, member)
  | _, _ => none

/-- The key of a member of a group; outside any group, the member alone. -/
def join (group member : Text) : Text :=
  if group.isEmpty then member else group ++ '_' :: member

/-- What is left of a key after the name of a group and an underscore. -/
def member? (group k : Text) : Option Text :=
  match Text.after? group k with
  | some ('_' :: member) => some member
  | _ => none

/-- Does the key name a member of the group? -/
def isMember (group k : Text) : Bool :=
  (member? group k).isSome

@[simp] theorem join_nil (member : Text) : join [] member = member := rfl

theorem join_of_ne_nil {group : Text} (h : group ≠ []) (member : Text) :
    join group member = group ++ '_' :: member := by
  cases group with
  | nil => exact absurd rfl h
  | cons g group => rfl

theorem takeWhile_append_underscore {group : Text} (h : '_' ∉ group) (member : Text) :
    (group ++ '_' :: member).takeWhile (· != '_') = group ∧
      (group ++ '_' :: member).dropWhile (· != '_') = '_' :: member := by
  induction group with
  | nil => simp
  | cons c group ih =>
    simp only [List.mem_cons, not_or] at h
    have := ih h.2
    have hc : (c != '_') = true := by simpa using Ne.symm h.1
    simp [hc, this.1, this.2]

theorem split?_join {group : Text} (ne : group ≠ []) (h : '_' ∉ group) (member : Text) :
    split? (join group member) = some (group, member) := by
  cases group with
  | nil => exact absurd rfl ne
  | cons g group =>
    have := takeWhile_append_underscore h member
    simp only [split?, join_of_ne_nil ne, this.1, this.2]

theorem of_split? {k group member : Text} (h : split? k = some (group, member)) :
    group ≠ [] ∧ '_' ∉ group ∧ join group member = k := by
  simp only [split?] at h
  split at h
  · rename_i g gs u ms ht hd
    simp only [Option.some.injEq, Prod.mk.injEq] at h
    obtain ⟨rfl, rfl⟩ := h
    have hu : u = '_' := by
      have := List.head?_dropWhile_not (· != '_') k
      simpa [hd] using this
    refine ⟨List.cons_ne_nil g gs, fun hm => ?_, ?_⟩
    · rw [← ht] at hm
      have := List.all_eq_true.1 (List.all_takeWhile (p := (· != '_')) (l := k)) _ hm
      simp at this
    · subst hu
      rw [join_of_ne_nil (List.cons_ne_nil g gs), ← ht, ← hd, List.takeWhile_append_dropWhile]
  · cases h

theorem member?_eq_some_iff {group k member : Text} :
    member? group k = some member ↔ group ++ '_' :: member = k := by
  rw [← Text.after?_eq_some_iff, member?]
  split
  · rename_i m h
    simp [h]
  · rename_i h
    simpa using h member

/-- The group that a key names is one that it names a member of. -/
theorem member?_of_split? {k group member : Text} (h : split? k = some (group, member)) :
    member? group k = some member := by
  obtain ⟨ne, -, e⟩ := of_split? h
  exact member?_eq_some_iff.2 (join_of_ne_nil ne member ▸ e)

/-- A key splits into what joins to it, provided the group is a name without
    underscores. -/
theorem split?_eq_some_iff {k group member : Text} :
    split? k = some (group, member) ↔ group ≠ [] ∧ '_' ∉ group ∧ join group member = k :=
  ⟨of_split?, fun ⟨ne, h, e⟩ => e ▸ split?_join ne h member⟩

end EnvFile.Key
