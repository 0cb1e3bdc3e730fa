import EnvFile.Block
import EnvFile.Proofs.Texts
import Mathlib.Data.List.Chain

/-! # Canonical keys

    A key is *canonical* if it is not empty and normalising leaves it alone.
    Normalising brings every key of a statement into this form
    (`canonical_normalize`), and a canonical key can stand in a statement
    (`Canonical.legible`).

    The texts that normalising leaves alone are those without two underscores
    side by side (`normalize_eq_self_iff_formed`), and so are the two parts that
    a key splits into (`formed_normalize_split?`). -/

namespace EnvFile.Key

/-- The characters of canonical keys. -/
def isCanonical (c : Char) : Bool :=
  c.isUpper || c.isDigit || c == '.' || c == '_'

theorem isUpper_toUpper {c : Char} (h : c.isLower = true) : c.toUpper.isUpper = true := by
  have hn : 97 ≤ c.val.toNat ∧ c.val.toNat ≤ 122 := isLower_iff.1 h
  unfold Char.toUpper
  rw [dif_pos ⟨UInt32.le_iff_toNat_le.2 hn.1, UInt32.le_iff_toNat_le.2 hn.2⟩, isUpper_iff]
  -- the offset is negative, so the sum wraps around
  have hu : (c.val + ('A'.val - 'a'.val)).toNat = c.val.toNat - 32 := by
    show (c.val + 4294967264).toNat = _
    rw [UInt32.toNat_add]
    show (c.val.toNat + 4294967264) % 4294967296 = _
    omega
  show 65 ≤ (c.val + ('A'.val - 'a'.val)).toNat ∧ (c.val + ('A'.val - 'a'.val)).toNat ≤ 90
  omega

theorem toUpper_of_not_isLower {c : Char} (h : c.isLower = false) : c.toUpper = c := by
  unfold Char.toUpper
  refine dif_neg fun hc => ?_
  have hn : 97 ≤ c.toNat ∧ c.toNat ≤ 122 :=
    ⟨UInt32.le_iff_toNat_le.1 hc.1, UInt32.le_iff_toNat_le.1 hc.2⟩
  exact Bool.eq_false_iff.1 h (isLower_iff.2 hn)

theorem isCanonical_toUpper {c : Char} (h : c.isAlphanum = true) :
    isCanonical c.toUpper = true := by
  unfold isCanonical
  cases hl : c.isLower with
  | true => simp [isUpper_toUpper hl]
  | false =>
    have hc : c.isUpper = true ∨ c.isDigit = true := by
      simpa [hl] using isAlphanum_iff.1 h
    rw [toUpper_of_not_isLower hl]
    rcases hc with hc | hc <;> simp [hc]

theorem isCanonical_canonicalChar (c : Char) : isCanonical (canonicalChar c) = true := by
  unfold canonicalChar
  by_cases hc : c.isAlphanum = true
  · simp [hc, isCanonical_toUpper hc]
  · by_cases hp : c = '.'
    · subst hp
      decide
    · simp [hc, hp]
      decide

/-- Lower-case letters lie above the upper-case ones and the digits. -/
theorem not_isLower {c : Char} (h : c.isUpper = true ∨ c.isDigit = true) :
    c.isLower = false := by
  have hn : c.toNat ≤ 90 := by
    rcases h with h | h
    · exact (isUpper_iff.1 h).2
    · exact Nat.le_trans (Char.isDigit_iff_toNat.1 h).2 (by decide)
  refine Bool.eq_false_iff.2 fun hl => ?_
  have := (isLower_iff.1 hl).1
  omega

theorem canonicalChar_of_isCanonical {c : Char} (h : isCanonical c = true) :
    canonicalChar c = c := by
  simp only [isCanonical, Bool.or_eq_true, beq_iff_eq] at h
  rcases h with (h | rfl) | rfl
  · have halnum : c.isAlphanum = true :=
      isAlphanum_iff.2 (h.elim (fun h => .inl (.inl h)) .inr)
    unfold canonicalChar
    rw [halnum]
    exact toUpper_of_not_isLower (not_isLower h)
  · decide
  · decide

/-! ## Normal forms -/

theorem isCanonical_of_mem_normalize {k : Text} {c : Char} (h : c ∈ normalize k) :
    isCanonical c = true := by
  unfold normalize at h
  obtain ⟨d, -, rfl⟩ := List.mem_map.1 (mem_of_mem_collapse h)
  exact isCanonical_canonicalChar d

/-- Normalising twice is normalising once. -/
theorem normalize_normalize (k : Text) : normalize (normalize k) = normalize k := by
  have hmap : (normalize k).map canonicalChar = normalize k := by
    refine (List.map_congr_left fun c hc => ?_).trans (List.map_id _)
    exact canonicalChar_of_isCanonical (isCanonical_of_mem_normalize hc)
  show collapse ((normalize k).map canonicalChar) = _
  rw [hmap]
  exact collapse_collapse _

theorem normalize_ne_nil {k : Text} (h : k ≠ []) : normalize k ≠ [] := by
  intro hn
  have hhead := head?_collapse (k.map canonicalChar)
  have : collapse (k.map canonicalChar) = [] := hn
  rw [this] at hhead
  cases k with
  | nil => exact h rfl
  | cons c k => cases hhead

/-- A key in normal form that is not empty. -/
structure Canonical (k : Text) : Prop where
  ne_nil : k ≠ []
  normal : normalize k = k

instance (k : Text) : Decidable (Canonical k) :=
  decidable_of_iff (k ≠ [] ∧ normalize k = k) ⟨fun ⟨h₁, h₂⟩ => ⟨h₁, h₂⟩, fun ⟨h₁, h₂⟩ => ⟨h₁, h₂⟩⟩

theorem canonical_normalize {k : Text} (h : k ≠ []) : Canonical (normalize k) :=
  ⟨normalize_ne_nil h, normalize_normalize k⟩

theorem isKeyChar_of_mem_normalize {k : Text} {c : Char} (h : c ∈ normalize k) :
    Assignment.isKeyChar c = true := by
  have := isCanonical_of_mem_normalize h
  simp only [isCanonical, Bool.or_eq_true, beq_iff_eq] at this
  simp only [Assignment.isKeyChar, Bool.or_eq_true, isAlphanum_iff, beq_iff_eq]
  rcases this with ((h | h) | h) | h <;> simp [h]

/-- A key that can stand in a statement. -/
structure Legible (k : Text) : Prop where
  ne_nil : k ≠ []
  isKeyChar : ∀ {c}, c ∈ k → Assignment.isKeyChar c = true

instance (k : Text) : Decidable (Legible k) :=
  decidable_of_iff (k ≠ [] ∧ k.all Assignment.isKeyChar = true)
    ⟨fun ⟨h₁, h₂⟩ => ⟨h₁, fun {c} => List.all_eq_true.1 h₂ c⟩,
      fun ⟨h₁, h₂⟩ => ⟨h₁, List.all_eq_true.2 fun _ => h₂⟩⟩

theorem Canonical.legible {k : Text} (h : Canonical k) : Legible k :=
  ⟨h.ne_nil, fun hc => isKeyChar_of_mem_normalize (h.normal.symm ▸ hc)⟩

/-! ## Normal forms, taken apart and put together -/

theorem length_collapse_le (t : Text) : (collapse t).length ≤ t.length := by
  induction t with
  | nil => exact Nat.le_refl _
  | cons c t ih =>
    rw [collapse]
    split
    · exact Nat.le_succ_of_le ih
    · exact Nat.succ_le_succ ih

/-- There is no run to shorten exactly if no two underscores are neighbours. -/
theorem collapse_eq_self_iff {t : Text} :
    collapse t = t ↔ t.IsChain fun c d => c = '_' → d ≠ '_' := by
  induction t with
  | nil => simp [collapse]
  | cons c t ih =>
    rw [List.isChain_cons, ← ih, collapse]
    by_cases h : (c == '_' && t.head? == some '_') = true
    · -- a run loses a character, so the text does not stay as long as it was
      have hc : c = '_' ∧ t.head? = some '_' := by simpa using h
      have hlen : collapse t ≠ c :: t := by
        intro he
        have := length_collapse_le t
        rw [he] at this
        exact Nat.not_succ_le_self _ this
      rw [if_pos h]
      exact ⟨fun e => absurd e hlen, fun h => absurd rfl (h.1 '_' hc.2 hc.1)⟩
    · have hd : ∀ d ∈ t.head?, c = '_' → d ≠ '_' := by
        rintro d hd rfl rfl
        exact h (by simpa using hd)
      rw [if_neg h]
      exact ⟨fun e => ⟨hd, (List.cons.inj e).2⟩, fun h => congrArg (c :: ·) h.2⟩

/-- A text is in normal form if it has the right characters and no two
    underscores side by side. -/
theorem normalize_eq_self_iff {k : Text} :
    normalize k = k ↔
      (∀ c ∈ k, isCanonical c = true) ∧ k.IsChain fun c d => c = '_' → d ≠ '_' := by
  constructor
  · intro h
    refine ⟨fun c hc => isCanonical_of_mem_normalize (h ▸ hc), collapse_eq_self_iff.1 ?_⟩
    have := collapse_collapse (k.map canonicalChar)
    rwa [show collapse (k.map canonicalChar) = k from h] at this
  · rintro ⟨hc, hchain⟩
    have hmap : k.map canonicalChar = k :=
      (List.map_congr_left fun c h => canonicalChar_of_isCanonical (hc c h)).trans (List.map_id _)
    unfold normalize
    rw [hmap]
    exact collapse_eq_self_iff.2 hchain

/-- A full key is in normal form exactly if the group and the member are, and
    neither puts a second underscore beside the one between them. -/
theorem normalize_append_underscore_iff {g m : Text} (hg : '_' ∉ g) :
    normalize (g ++ '_' :: m) = g ++ '_' :: m ↔
      normalize g = g ∧ normalize m = m ∧ m.head? ≠ some '_' := by
  have hlast : ∀ c ∈ g.getLast?, c ≠ '_' := by
    rintro c hc rfl
    exact hg (List.mem_of_getLast? hc)
  have hu : isCanonical '_' = true := by decide
  simp only [normalize_eq_self_iff, List.isChain_append, List.isChain_cons]
  constructor
  · rintro ⟨hc, hcg, ⟨hm, hcm⟩, -⟩
    refine ⟨⟨fun c h => hc c (by simp [h]), hcg⟩, ⟨fun c h => hc c (by simp [h]), hcm⟩, ?_⟩
    exact fun h => hm '_' h trivial rfl
  · rintro ⟨⟨hg, hcg⟩, ⟨hm, hcm⟩, hne⟩
    refine ⟨fun c h => ?_, hcg, ⟨fun d hd _ e => hne (e ▸ hd), hcm⟩,
      fun c h d _ e => absurd e (hlast c h)⟩
    rcases List.mem_append.1 h with h | h
    · exact hg c h
    · exact (List.mem_cons.1 h).elim (fun e => e ▸ hu) (hm c)

/-- What is left of a key in normal form is in normal form. -/
theorem normalize_of_member? {g k m : Text} (hk : normalize k = k) (hm : member? g k = some m) :
    normalize m = m := by
  rw [← member?_eq_some_iff.1 hm, normalize_eq_self_iff, List.isChain_append,
    List.isChain_cons] at hk
  obtain ⟨hc, -, ⟨-, hchain⟩, -⟩ := hk
  exact normalize_eq_self_iff.2 ⟨fun c h => hc c (by simp [h]), hchain⟩

/-- The group that a key in normal form names is in normal form. -/
theorem normalize_of_split? {k g m : Text} (hk : normalize k = k) (hs : split? k = some (g, m)) :
    normalize g = g := by
  obtain ⟨ne, plain, e⟩ := of_split? hs
  rw [← e, join_of_ne_nil ne, normalize_append_underscore_iff plain] at hk
  exact hk.1

/-! ## Keys as they are split -/

/-- The form of keys: upper-case letters, digits, periods and underscores, and
    no two underscores side by side. -/
structure Formed (k : Text) : Prop where
  isCanonical : ∀ c ∈ k, isCanonical c = true
  apart : ¬ ['_', '_'] <:+: k

theorem isChain_iff_not_infix {k : Text} :
    (k.IsChain fun c d => c = '_' → d ≠ '_') ↔ ¬ ['_', '_'] <:+: k := by
  induction k with
  | nil => simp
  | cons c k ih =>
    rw [List.isChain_cons, ih, List.infix_cons_iff, not_or, List.cons_prefix_cons]
    refine and_congr_left fun _ => ?_
    cases k with
    | nil => simp
    | cons d k => simp [List.cons_prefix_cons, eq_comm]

theorem normalize_eq_self_iff_formed {k : Text} : normalize k = k ↔ Formed k := by
  rw [normalize_eq_self_iff, isChain_iff_not_infix]
  exact ⟨fun ⟨h₁, h₂⟩ => ⟨h₁, h₂⟩, fun ⟨h₁, h₂⟩ => ⟨h₁, h₂⟩⟩

/-- **Normalising brings keys into one form, and splitting keeps them in it.**
    The texts of the form are the ones that normalising leaves alone.  A key in
    the form splits into a group and a member in the form, neither of which
    brings an underscore to the one between them, so that the row of the member
    has the whole key in a block of the group. -/
theorem formed_normalize_split? (k : Text) :
    Formed (normalize k) ∧ (∀ j, normalize j = j ↔ Formed j) ∧
      normalize (normalize k) = normalize k ∧
      ∀ group member, split? (normalize k) = some (group, member) →
        (group ≠ [] ∧ '_' ∉ group) ∧ member.head? ≠ some '_' ∧
          normalize group = group ∧ normalize member = member ∧
          ∀ (b : Block) (r : Row), b.name = group → r.key = member →
            r.fullKey b.name = normalize k := by
  refine ⟨normalize_eq_self_iff_formed.1 (normalize_normalize k),
    fun j => normalize_eq_self_iff_formed, normalize_normalize k, fun group member split => ?_⟩
  obtain ⟨ne, plain, joined⟩ := of_split? split
  have normal := normalize_normalize k
  rw [← joined, join_of_ne_nil ne, normalize_append_underscore_iff plain] at normal
  obtain ⟨group_normal, member_normal, apart⟩ := normal
  refine ⟨⟨ne, plain⟩, apart, group_normal, member_normal, ?_⟩
  rintro b r rfl rfl
  exact joined

/-- A run of different characters in front of the split, and one at the end. -/
theorem formed_normalize_split?_sample :
    normalize "app - \u00e9db.Host__".toList = "APP_DB.HOST_".toList ∧
      split? (normalize "app - \u00e9db.Host__".toList) =
        some ("APP".toList, "DB.HOST_".toList) ∧
      (Row.ofPair "DB.HOST_".toList []).fullKey (Block.ofName "APP".toList).name =
        normalize "app - \u00e9db.Host__".toList := by
  have split : split? (normalize "app - \u00e9db.Host__".toList) =
      some ("APP".toList, "DB.HOST_".toList) := by decide
  obtain ⟨-, -, -, parts⟩ := formed_normalize_split? "app - \u00e9db.Host__".toList
  obtain ⟨-, -, group, member, full⟩ := parts _ _ split
  exact ⟨by decide, split, full _ _ group member⟩

end EnvFile.Key
