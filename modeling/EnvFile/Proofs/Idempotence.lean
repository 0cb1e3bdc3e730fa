import EnvFile.Proofs.BannerPlacing
import EnvFile.Proofs.MergingDocuments
import EnvFile.Proofs.SolidPart

/-! # Taking in twice

    What has been taken in once is there for good: adding or merging it again
    changes nothing, not even the order of the items, and nothing that comes
    from the document itself changes it (`merge_again`).

    The second pass does not run through the branches of the first.  The first
    may have appended rows, founded blocks and gathered loose rows in them.
    After it every item is *held* by the document (`Document.Holds`): its rows
    stand under their full keys, the rule has nothing to change about them,
    and its block is there, with a title if it brings one.  The argument is in
    two halves:

    * an item that is held changes nothing (`held_add`, `held_mergeItem`);
    * a pass over items leaves every one of them held
      (`Document.Brings.holds_foldl`). -/

namespace EnvFile

/-! ## Rows -/

namespace Row

variable {r o : Row} {v w : Text}

/-- The row would not remember the value as a shadow. -/
def Ignores (r : Row) (v : Text) : Prop :=
  r.disabled = true ∨ v = r.value ∨ v ∈ r.shadows

theorem addShadow_of_ignores (h : r.Ignores v) : r.addShadow v = r := by
  unfold addShadow hasShadow
  rw [if_pos]
  simpa [Ignores, or_assoc] using h

theorem Ignores.addShadow (h : r.Ignores w) (v : Text) : (r.addShadow v).Ignores w := by
  unfold Row.addShadow
  split
  · exact h
  · exact h.imp_right fun h => h.imp_right fun h => List.mem_append_left _ h

/-- A value that is remembered is not remembered again. -/
theorem ignores_addShadow (r : Row) (v : Text) : (r.addShadow v).Ignores v := by
  by_cases h : r.Ignores v
  · exact h.addShadow v
  · unfold addShadow hasShadow
    rw [if_neg (by simpa [Ignores, or_assoc] using h)]
    exact .inr (.inr (by simp))

theorem addShadows_of_ignores {vs : List Text} (h : ∀ v ∈ vs, r.Ignores v) :
    r.addShadows vs = r :=
  foldl_eq_self fun v hv => addShadow_of_ignores (h v hv)

theorem Ignores.addShadows (h : r.Ignores w) (vs : List Text) : (r.addShadows vs).Ignores w := by
  unfold Row.addShadows
  induction vs generalizing r with
  | nil => exact h
  | cons v vs ih => exact ih (h.addShadow v)

theorem ignores_addShadows (r : Row) {vs : List Text} (h : v ∈ vs) :
    (r.addShadows vs).Ignores v := by
  unfold addShadows
  induction vs generalizing r with
  | nil => cases h
  | cons w vs ih =>
    rcases List.mem_cons.1 h with rfl | h
    · exact (r.ignores_addShadow v).addShadows vs
    · exact ih _ h

/-- A row never remembers its own value. -/
theorem value_not_mem_addShadows (h : r.value ∉ r.shadows) (vs : List Text) :
    (r.addShadows vs).value ∉ (r.addShadows vs).shadows := by
  unfold addShadows
  induction vs generalizing r with
  | nil => exact h
  | cons v vs ih =>
    refine ih ?_
    unfold addShadow
    split
    · exact h
    · rename_i hn
      have hv : v ≠ r.value := by
        intro e
        simp [e] at hn
      simpa using ⟨h, hv.symm⟩

theorem setValue_self (h : r.value ∉ r.shadows) : r.setValue r.value = r := by
  have : r.shadows.filter (· != r.value) = r.shadows := by
    refine List.filter_eq_self.2 fun v hv => ?_
    have : v ≠ r.value := fun e => h (e ▸ hv)
    simpa using this
  unfold setValue
  rw [this]

theorem backfillComment_eq_self {c : Text} (h : r.comment ≠ [] ∨ c = []) :
    r.backfillComment c = r := by
  unfold backfillComment
  split
  · rename_i hr
    have hr := List.isEmpty_iff.1 hr
    have hc : c = r.comment := (h.resolve_left (absurd hr)).trans hr.symm
    rw [hc]
  · rfl

/-- When merging changes nothing. -/
theorem merge_eq_self (value : r.value = o.value) (own : r.value ∉ r.shadows)
    (shadows : ∀ v ∈ o.shadows, r.Ignores v) (comment : r.comment ≠ [] ∨ o.comment = []) :
    r.merge o = r := by
  unfold merge
  rw [← value, setValue_self own, addShadows_of_ignores shadows, backfillComment_eq_self comment]

theorem merge_self (h : r.Sound) : r.merge r = r := by
  refine merge_eq_self rfl h.value_not_mem (fun v hv => .inr (.inr hv)) ?_
  exact (em (r.comment = [])).symm

/-- Merging a second time changes nothing. -/
theorem merge_merge (r o : Row) : (r.merge o).merge o = r.merge o := by
  have own : (r.setValue o.value).value ∉ (r.setValue o.value).shadows := by
    simp [setValue]
  refine merge_eq_self (r.merge_frame o).2.2 ?_ (fun v hv => ?_) ?_
  · unfold merge
    rw [(backfillComment_frame _ _).2.1, (backfillComment_frame _ _).2.2.2]
    exact value_not_mem_addShadows own o.shadows
  · have := (r.setValue o.value).ignores_addShadows hv
    unfold Ignores merge at *
    simpa using this
  · by_cases ho : o.comment = []
    · exact .inr ho
    · exact .inl (comment_backfillComment_ne_nil (.inr ho))

end Row

/-! ## What a document holds -/

namespace Block

variable {b c : Block}

theorem addRow_of_member {r : Row} (h : (b.member? r.key).isSome = true) : b.addRow r = b := by
  obtain ⟨old, hold⟩ := Option.isSome_iff_exists.1 h
  unfold addRow
  rw [hold]

theorem modifyMember_eq_self {m : Text} {g : Row → Row} (h : ∀ r, b.member? m = some r → g r = r) :
    b.modifyMember m g = b := by
  unfold modifyMember
  rw [updateFirst_eq_self h]

theorem backfillComment_eq_self {t : Text} (h : b.comment ≠ [] ∨ t = []) :
    b.backfillComment t = b := by
  unfold backfillComment
  split
  · rename_i hb
    have hb := List.isEmpty_iff.1 hb
    have ht : t = b.comment := (h.resolve_left (absurd hb)).trans hb.symm
    rw [ht]
  · rfl

/-- The block has the rows of `c`, about which the rule `f` has nothing to
    change, and a title if `c` has one. -/
structure Holds (f : Row → Row → Row) (b c : Block) : Prop where
  rows : ∀ r ∈ c.rows, ∃ old, b.member? r.key = some old ∧ f old r = old
  title : b.comment ≠ [] ∨ c.comment = []

theorem add_of_holds (h : b.Holds Row.keep c) : b.add c = b := by
  have rows : b.addRows c.rows = b := by
    refine foldl_eq_self fun r hr => addRow_of_member ?_
    obtain ⟨old, hold, -⟩ := h.rows r hr
    rw [hold]
    rfl
  unfold add
  rw [rows, backfillComment_eq_self h.title]

theorem merge_of_holds (h : b.Holds Row.merge c) : b.merge c = b := by
  have rows : c.rows.foldl mergeRow b = b := by
    refine foldl_eq_self fun r hr => ?_
    obtain ⟨old, hold, e⟩ := h.rows r hr
    unfold mergeRow
    rw [hold]
    refine modifyMember_eq_self fun s hs => ?_
    cases hold.symm.trans hs
    exact e
  unfold merge
  rw [rows, backfillComment_eq_self h.title]

end Block

namespace Document

variable {f : Row → Row → Row} {bring : Document → Item → Document} {d d' : Document} {b : Block}

/-- The document has a block of the name of `b`, with a title if `b` has
    one. -/
def Titles (d : Document) (b : Block) : Prop :=
  (d.named? b.name).isSome = true ∧ (d.title b.name ≠ [] ∨ b.comment = [])

/-- The document has the rows of the item under their full keys, and the rule
    `f` has nothing to change about them; if the item is a block, its block is
    there too. -/
structure Holds (f : Row → Row → Row) (d : Document) (i : Item) : Prop where
  rows : ∀ r ∈ i.flat, ∃ old, d.under? r.key = some old ∧ f old r = old
  block : ∀ b, i = .block b → d.Titles b

/-! ## What is held changes nothing -/

theorem modifyNamed_eq_self {g : Text} {change : Block → Block}
    (h : ∀ b, d.named? g = some b → change b = b) : d.modifyNamed g change = d := by
  have same : updateFirst (Item.isBlock g) (Item.mapBlock change) d.items = d.items := by
    refine updateFirst_eq_self fun i hi => ?_
    cases i with
    | row r => rfl
    | block b =>
      refine congrArg Item.block (h b ?_)
      unfold named?
      rw [hi]
      rfl
  unfold modifyNamed
  rw [same]

theorem modifyLoose_eq_self {k : Text} {g : Row → Row} (h : ∀ r, d.loose? k = some r → g r = r) :
    d.modifyLoose k g = d := by
  have same : updateFirst (Item.isRow k) (Item.mapRow g) d.items = d.items := by
    refine updateFirst_eq_self fun i hi => ?_
    cases i with
    | block b => rfl
    | row r =>
      refine congrArg Item.row (h r ?_)
      unfold loose?
      rw [hi]
      rfl
  unfold modifyLoose
  rw [same]

theorem named?_of_owner? {k m : Text} (h : d.owner? k = some (b, m)) :
    d.named? b.name = some b := by
  unfold owner? at h
  obtain ⟨⟨g, m'⟩, -, h⟩ := Option.bind_eq_some_iff.1 h
  obtain ⟨c, hc, e⟩ := Option.map_eq_some_iff.1 h
  cases e
  rw [(of_named? hc).2]
  exact hc

theorem modify_eq_self {k : Text} {g : Row → Row} (h : ∀ r, d.find? k = some r → g r = r) :
    d.modify k g = d := by
  unfold find? at h
  unfold modify
  cases ho : d.owner? k with
  | none =>
    simp only [ho] at h ⊢
    exact modifyLoose_eq_self h
  | some bm =>
    obtain ⟨b, m⟩ := bm
    simp only [ho] at h ⊢
    refine modifyNamed_eq_self fun c hc => Block.modifyMember_eq_self ?_
    cases (named?_of_owner? ho).symm.trans hc
    exact h

/-- Rows that differ in nothing but their keys, and not in these. -/
theorem eq_of_rekey {r s : Row} (k : Text) (key : r.key = s.key)
    (h : { r with key := k } = { s with key := k }) : r = s := by
  cases r
  cases s
  cases key
  cases h
  rfl

/-- The block of an item that is held holds it. -/
theorem Holds.named (h : Holds f d (.block b)) (hd : d.Canonical) (hn : d.Normal)
    (hb : b.Canonical) {combine : Block → Block → Block} (hc : Block.Combines f combine)
    (key : ∀ old new, (f old new).key = old.key) :
    ∃ c, d.named? b.name = some c ∧ c.Holds f b := by
  obtain ⟨named, title⟩ := h.block b rfl
  rcases hd.group_cases hn hb.name with ⟨c, name, hp, found, canonical, -⟩ | ⟨rows, -, none, -⟩
  · rw [title_of_named found] at title
    refine ⟨c, found, fun r hr => ?_, title⟩
    obtain ⟨old, hold, e⟩ := h.rows (r.atFullKey b.name) (List.mem_map_of_mem hr)
    -- the row stands under its full key because the member does
    rw [Row.atFullKey_of_member hb.name rfl] at hold e
    rw [under?_of_part_block hd hp (hb.name.family_append r.key), ← name,
      Item.under?_block canonical.name] at hold
    obtain ⟨member, hm, rfl⟩ := Option.map_eq_some_iff.1 hold
    refine ⟨member, hm, eq_of_rekey (b.name ++ '_' :: r.key) (key member r) ?_⟩
    rw [← hc.rekey]
    rwa [name] at e
  · rw [none] at named
    cases named

/-- A block that is held changes nothing. -/
theorem held_putBlock {combine : Block → Block → Block} (hc : Block.Combines f combine)
    (key : ∀ old new, (f old new).key = old.key)
    (settled : ∀ b c : Block, b.Holds f c → combine b c = b) (hd : d.Canonical) (hn : d.Normal)
    (hb : b.Canonical) (h : Holds f d (.block b)) : d.putBlock combine b = d := by
  obtain ⟨c, found, holds⟩ := h.named hd hn hb hc key
  rw [putBlock_of_named found]
  refine modifyNamed_eq_self fun c' hc' => ?_
  cases found.symm.trans hc'
  exact settled c b holds

theorem held_addRow {r : Row} (hd : d.Canonical) (hn : d.Normal) (h : Holds Row.keep d (.row r)) :
    d.addRow r = d := by
  obtain ⟨old, hold, -⟩ := h.rows r List.mem_cons_self
  unfold addRow
  cases hl : d.loose? r.key with
  | some s => rfl
  | none =>
    rcases hd.part_cases hn (Key.family r.key) with ⟨b, hf, hp, canonical, -⟩ | ⟨rows, hp, -⟩
    · -- the row is a member of the block of its group
      obtain ⟨m, hs⟩ := Key.split?_of_family hf
      have named : d.named? b.name = some b := by
        rw [named?_part, ← hf, hp, named?_block]
      have full : b.name ++ '_' :: m = r.key := by
        rw [← Key.join_of_ne_nil canonical.name.ne_nil]
        exact (Key.of_split? hs).2.2
      rw [under?_of_part_block hd hp rfl, ← full, Item.under?_block canonical.name] at hold
      obtain ⟨member, hm, -⟩ := Option.map_eq_some_iff.1 hold
      simp only [hs, named]
      refine modifyNamed_eq_self fun c hc => ?_
      cases named.symm.trans hc
      unfold Block.addPrefixedRow
      rw [Key.member?_of_split? hs]
      exact Block.addRow_of_member (by rw [hm]; rfl)
    · -- a loose row is found where it stands
      rw [loose?_part, hp, loose?_rows] at hl
      rw [under?_of_part_rows hd hp rfl, hl] at hold
      cases hold

theorem held_mergeRow {r : Row} (hd : d.Canonical) (hn : d.Normal)
    (h : Holds Row.merge d (.row r)) : d.mergeRow r = d := by
  obtain ⟨old, hold, e⟩ := h.rows r List.mem_cons_self
  rw [← find?_eq hd hn] at hold
  obtain ⟨found, hf, rfl⟩ := Option.map_eq_some_iff.1 hold
  unfold mergeRow
  simp only [hf]
  refine modify_eq_self fun s hs => ?_
  cases hf.symm.trans hs
  refine eq_of_rekey r.key (found.merge_frame r).1 ?_
  exact (Row.rekey_merge found r r.key r.key).symm.trans e

/-- Adding an item that is held changes nothing. -/
theorem held_add {i : Item} (hd : d.Canonical) (hn : d.Normal) (hi : i.Canonical)
    (h : Holds Row.keep d i) : d.add i = d := by
  cases i with
  | row r => exact held_addRow hd hn h
  | block b =>
    exact held_putBlock Block.combines_add (fun _ _ => rfl) (fun _ _ => Block.add_of_holds) hd hn hi h

/-- Merging an item that is held changes nothing. -/
theorem held_mergeItem {i : Item} (hd : d.Canonical) (hn : d.Normal) (hi : i.Canonical)
    (h : Holds Row.merge d i) : d.mergeItem i = d := by
  cases i with
  | row r => exact held_mergeRow hd hn h
  | block b =>
    exact held_putBlock Block.combines_merge (fun old new => (old.merge_frame new).1)
      (fun _ _ => Block.merge_of_holds) hd hn hi h

/-! ## After a pass everything is held -/

theorem Takes.titles {i : Item} (takes : Takes f d i d') (h : d.Titles b) : d'.Titles b := by
  by_cases hf : i.family = .group b.name
  · refine ⟨takes.named _ hf (.inl h.1), h.2.imp_left fun ht => ?_⟩
    rw [takes.title _ hf, if_neg (by simpa using ht)]
    exact ht
  · have replaced : d.Replaced i.family (d'.part i.family).items d' := ⟨rfl, takes.others⟩
    have same : d'.named? b.name = d.named? b.name := by
      rw [named?_part, named?_part d, replaced.part_ne (Ne.symm hf)]
    unfold Titles Document.title
    rw [same]
    exact h

theorem Takes.titles_block (takes : Takes f d (.block b) d') : d'.Titles b := by
  refine ⟨takes.named _ rfl (.inr rfl), ?_⟩
  rw [takes.title _ rfl]
  by_cases ht : d.title b.name = []
  · rw [ht]
    exact (em (b.comment = [])).symm
  · rw [if_neg (by simpa using ht)]
    exact .inl ht

/-- Blocks that were there or came in are there at the end. -/
theorem TakesIn.titles_foldl (h : TakesIn f bring) (hd : d.Canonical) (hn : d.Normal)
    {items : List Item} (hi : ∀ i ∈ items, i.Canonical ∧ i.Normal)
    (hb : d.Titles b ∨ .block b ∈ items) : (items.foldl bring d).Titles b := by
  induction items generalizing d with
  | nil => exact hb.resolve_right List.not_mem_nil
  | cons i items ih =>
    obtain ⟨hic, hin⟩ := hi i List.mem_cons_self
    have takes := h hd hn hic hin
    refine ih takes.canonical takes.normal (fun j hj => hi j (List.mem_cons_of_mem i hj)) ?_
    rcases hb with hb | hb
    · exact .inl (takes.titles hb)
    · rcases List.mem_cons.1 hb with rfl | hb
      · exact .inl takes.titles_block
      · exact .inr hb

/-- `bring` takes items in by the rule `f`, and what it has taken in it takes
    in no second time. -/
structure Brings (f : Row → Row → Row) (bring : Document → Item → Document) : Prop where
  takes : TakesIn f bring
  held : ∀ {d : Document} {i : Item}, d.Canonical → d.Normal → i.Canonical → Holds f d i →
    bring d i = d
  twice : ∀ old new, f (f old new) new = f old new
  self : ∀ {r : Row}, r.Sound → f r r = r

theorem brings_add : Brings Row.keep add where
  takes := takesIn_add
  held := held_add
  twice _ _ := rfl
  self _ := rfl

theorem brings_mergeItem : Brings Row.merge mergeItem where
  takes := takesIn_mergeItem
  held := held_mergeItem
  twice := Row.merge_merge
  self := Row.merge_self

/-- All rows of the document are sound. -/
def Sound (d : Document) : Prop :=
  ∀ p ∈ d.rows, p.2.Sound

instance (d : Document) : Decidable d.Sound :=
  inferInstanceAs (Decidable (∀ p ∈ d.rows, p.2.Sound))

theorem Sound.flat (h : d.Sound) {i : Item} (hi : i ∈ d.items) {r : Row} (hr : r ∈ i.flat) :
    r.Sound := by
  obtain ⟨s, hs, rfl⟩ := List.mem_map.1 hr
  have sound : s.Sound :=
    h (s.fullKey i.group, s) (List.mem_flatMap.2 ⟨i, hi, List.mem_map_of_mem hs⟩)
  exact ⟨sound.nodup, sound.value_not_mem, sound.disabled⟩

theorem mem_flat {i : Item} (hi : i ∈ d.items) {r : Row} (hr : r ∈ i.flat) : r ∈ d.flat := by
  obtain ⟨s, hs, rfl⟩ := List.mem_map.1 hr
  exact mem_flat_of_mem_items hi hs

namespace Brings

variable {e : Document} (h : Brings f bring)

include h

/-- A document holds its own items. -/
theorem holds_self (hd : d.Canonical) (hn : d.Normal) (sound : d.Sound) {i : Item}
    (hi : i ∈ d.items) : Holds f d i := by
  refine ⟨fun r hr => ?_, fun b hb => ?_⟩
  · exact ⟨r, under?_of_mem hd.keys_nodup (mem_flat hi hr), h.self (sound.flat hi hr)⟩
  subst hb
  have part := mem_part hi
  rcases hd.group_cases hn (hd.isGroup hi) with ⟨c, -, hp, named, -⟩ | ⟨rows, hp, -⟩
  · rw [show (Item.block b).family = .group b.name from rfl, hp] at part
    cases List.mem_singleton.1 part
    refine ⟨by rw [named]; rfl, ?_⟩
    rw [title_of_named named]
    exact (em (b.comment = [])).symm
  · rw [show (Item.block b).family = .group b.name from rfl, hp] at part
    simp at part

/-- After a pass over the items of a document each of them is held. -/
theorem holds_foldl (hd : d.Canonical) (hn : d.Normal) (he : e.Canonical) (hen : e.Normal)
    (sound : e.Sound) {i : Item} (hi : i ∈ e.items) : Holds f (e.items.foldl bring d) i := by
  have items : ∀ j ∈ e.items, j.Canonical ∧ j.Normal := fun j hj => ⟨he.item hj, hen j hj⟩
  have nodup := he.keys_nodup
  rw [← map_key_flat, flat_eq] at nodup
  obtain ⟨-, -, under⟩ := h.takes.under?_foldl hd hn items nodup
  refine ⟨fun r hr => ?_, fun b hb => ?_⟩
  · have found : e.under? r.key = some r := under?_of_mem he.keys_nodup (mem_flat hi hr)
    unfold under? at found
    rw [flat_eq] at found
    rw [under, show (e.items.flatMap Item.flat).find? (·.key == r.key) = some r from found]
    -- the row came in by itself, or met one of its key
    cases d.under? r.key with
    | none => exact ⟨r, rfl, h.self (sound.flat hi hr)⟩
    | some old => exact ⟨f old r, rfl, h.twice old r⟩
  · subst hb
    exact h.takes.titles_foldl hd hn items (.inr hi)

/-- The second pass changes nothing. -/
theorem foldl_foldl (hd : d.Canonical) (hn : d.Normal) (he : e.Canonical) (hen : e.Normal)
    (sound : e.Sound) : e.items.foldl bring (e.items.foldl bring d) = e.items.foldl bring d := by
  have items : ∀ j ∈ e.items, j.Canonical ∧ j.Normal := fun j hj => ⟨he.item hj, hen j hj⟩
  have nodup := he.keys_nodup
  rw [← map_key_flat, flat_eq] at nodup
  obtain ⟨canonical, normal, -⟩ := h.takes.under?_foldl hd hn items nodup
  refine foldl_eq_self fun i hi => ?_
  exact h.held canonical normal (he.item hi) (h.holds_foldl hd hn he hen sound hi)

/-- Nothing in a document is new to it. -/
theorem foldl_self (hd : d.Canonical) (hn : d.Normal) (sound : d.Sound) :
    d.items.foldl bring d = d :=
  foldl_eq_self fun _ hi => h.held hd hn (hd.item hi) (h.holds_self hd hn sound hi)

end Brings

end Document

/-! ## Row sets -/

namespace RowSet

variable {s t : RowSet}

theorem supersede_self {r : Row} (h : r.Sound) : supersede r r = r := by
  unfold supersede
  cases r.disabled <;> exact Row.merge_self h

/-- A row that has superseded another does so no second time. -/
theorem supersede_supersede (a : Row) {b : Row} (h : b.Sound) :
    supersede (supersede a b) b = supersede a b := by
  unfold supersede
  cases ha : a.disabled <;> cases hb : b.disabled
  · simp [ha, Row.merge_merge]
  · -- the value of the disabled row is a shadow already
    simp only [Row.addShadow_frame, ha]
    exact Row.addShadow_of_ignores (a.ignores_addShadow b.value)
  · -- the live row is there, perhaps with an older comment
    simp only [Row.backfillComment_frame, hb]
    have frame := b.backfillComment_frame a.comment
    refine Row.merge_eq_self frame.2.1 ?_ (fun v hv => .inr (.inr ?_)) ?_
    · rw [frame.2.1, frame.2.2.2]
      exact h.value_not_mem
    · rw [frame.2.2.2]
      exact hv
    · by_cases hc : b.comment = []
      · exact .inr hc
      · exact .inl (Row.comment_backfillComment_ne_nil (.inl hc))
  · simp [ha, Row.merge_merge]

theorem banner?_merge (s later : RowSet) (k : Text) :
    (s.merge later).banner? k = (s.banner? k).or (later.banner? k) := by
  have rows : ∀ (l : List Row) (s : RowSet), (l.foldl mergeRow s).banners = s.banners := by
    intro l
    induction l with
    | nil => exact fun _ => rfl
    | cons r l ih =>
      intro s
      rw [List.foldl_cons, ih]
      unfold mergeRow
      split <;> rfl
  have noted : ∀ (l : List (Text × Text)) (s : RowSet),
      (l.foldl (fun t p => t.noteBanner p.1 p.2) s).banners =
        l.foldl (fun d p => d.setNew p.1 p.2) s.banners := by
    intro l
    induction l with
    | nil => exact fun _ => rfl
    | cons p l ih => exact fun s => ih _
  unfold banner?
  rw [show (s.merge later).banners = _ from noted _ _, rows, Dictionary.get?_foldl_setNew]
  rfl

/-- All rows of the set are sound. -/
def Sound (s : RowSet) : Prop :=
  ∀ r ∈ s.rows.toList, r.Sound

instance (s : RowSet) : Decidable s.Sound :=
  inferInstanceAs (Decidable (∀ r ∈ s.rows.toList, r.Sound))

theorem Sound.find? (h : s.Sound) {k : Text} {r : Row} (hr : s.find? k = some r) : r.Sound :=
  h r (Catalog.mem_of_find? hr)

theorem merge_merge (s : RowSet) (ht : t.Sound) : (s.merge t).merge t = s.merge t := by
  refine ext_find? (fun k => ?_) fun k => ?_
  · rw [find?_merge, find?_merge]
    cases hs : s.find? k <;> cases hr : t.find? k
    · rfl
    · exact congrArg some (supersede_self (ht.find? hr))
    · rfl
    · exact congrArg some (supersede_supersede _ (ht.find? hr))
  · rw [banner?_merge, banner?_merge, Option.or_assoc, Option.or_self]

theorem merge_self (hs : s.Sound) : s.merge s = s := by
  refine ext_find? (fun k => ?_) fun k => ?_
  · rw [find?_merge]
    cases hr : s.find? k
    · rfl
    · exact congrArg some (supersede_self (hs.find? hr))
  · rw [banner?_merge, Option.or_self]

end RowSet

/-! ## Merging again -/

/-- **Merging is idempotent.**  For canonical documents with sound rows, a
    second merge with the same document changes nothing, nor does adding its
    items a second time, and a document is not changed by what it holds
    itself.  The same goes for merging row sets with sound rows. -/
theorem merge_again :
    (∀ d e : Document, d.Canonical → d.Normal → d.Sound → e.Canonical → e.Normal → e.Sound →
      (d.merge e).merge e = d.merge e ∧
        (d.addItems e.items).addItems e.items = d.addItems e.items ∧
        d.merge d = d ∧ d.addItems d.items = d) ∧
    ∀ s t : RowSet, s.Sound → t.Sound → (s.merge t).merge t = s.merge t ∧ s.merge s = s := by
  constructor
  · intro d e hd hn sound he hen sound'
    have add := Document.brings_add
    have merge := Document.brings_mergeItem
    exact ⟨merge.foldl_foldl hd hn he hen sound', add.foldl_foldl hd hn he hen sound',
      merge.foldl_self hd hn sound, add.foldl_self hd hn sound⟩
  · intro s t hs ht
    exact ⟨RowSet.merge_merge s ht, RowSet.merge_self hs⟩

/-- The first merge gathers two loose rows in a block, unites shadows and takes
    over comments; in the row sets a live row revives a disabled one. -/
theorem merge_again_gathering :
    let row (key value : String) : Row := { key := key.toList, value := value.toList }
    let d : Document :=
      { items := [.row (row "DB_HOST" "a"), .row (row "DEBUG" "0"), .row (row "DB_PORT" "1")] }
    let db : Block :=
      { name := "DB".toList, comment := "Database".toList,
        rows := [(row "HOST" "b").addShadow ['c'], (row "USER" "u").setDisabled true] }
    let e : Document := { items := [.block db, .row ((row "DEBUG" "1").setComment ['x'])] }
    let s := RowSet.ofRows [(row "A" "1").setDisabled true, (row "B" "2").setComment ['b']]
    let t := (RowSet.ofRows [row "A" "2", (row "B" "3").setDisabled true]).noteBanner ['A'] ['t']
    d.Canonical ∧ d.Normal ∧ d.Sound ∧ e.Canonical ∧ e.Normal ∧ e.Sound ∧ s.Sound ∧ t.Sound ∧
      (d.merge e).merge e = d.merge e ∧ d.merge e ≠ d ∧
      (d.merge e).keys = ["DEBUG".toList, "DB".toList] ∧ d.merge d = d ∧
      (s.merge t).merge t = s.merge t ∧ s.merge t ≠ s ∧ s.merge s = s := by
  intro row d db e s t
  obtain ⟨documents, rowSets⟩ := merge_again
  have hd : d.Canonical ∧ d.Normal ∧ d.Sound := by decide +kernel
  have he : e.Canonical ∧ e.Normal ∧ e.Sound := by decide +kernel
  have hs : s.Sound := by decide +kernel
  have ht : t.Sound := by decide +kernel
  obtain ⟨twice, -, self, -⟩ := documents d e hd.1 hd.2.1 hd.2.2 he.1 he.2.1 he.2.2
  obtain ⟨twice', self'⟩ := rowSets s t hs ht
  exact ⟨hd.1, hd.2.1, hd.2.2, he.1, he.2.1, he.2.2, hs, ht, twice, by decide +kernel,
    by decide +kernel, self, twice', by decide +kernel, self'⟩

end EnvFile
