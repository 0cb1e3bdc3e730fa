import EnvFile.Proofs.Precedence

/-! # Loading several files

    A load either ends at the first file that gives no rows, and then nothing
    has changed, or it arranges the merged rows of all files and exports them.

    `Folder.Fails` lists the three reasons why a file gives no rows; it is the
    error side of `Folder.rowsOf` (`fails_iff`). -/

namespace EnvFile

/-! ## Files that give no rows -/

/-- Why a file gives no rows: it is missing, it is no UTF-8, or a statement in
    it is malformed. -/
inductive Folder.Fails (folder : Folder) (layout : Layout) (path : Text) : Fault → Prop
  | missing (absent : folder.get? path = none) : Fails folder layout path .missingFile
  | encoding {bytes : List UInt8} {flaw : Utf8.Flaw} (present : folder.get? path = some bytes)
      (flawed : Utf8.decode bytes = .error flaw) : Fails folder layout path (.encoding flaw)
  | malformed {bytes : List UInt8} {t : Text} {line : Nat} {content : Text}
      (present : folder.get? path = some bytes) (decoded : Utf8.decode bytes = .ok t)
      (unreadable : RowSet.ofText layout t = .error (.malformed line content)) :
      Fails folder layout path (.malformed line content)

namespace Reader

/-- A segment that cannot be read is malformed, and it is not blank. -/
theorem feed_error {layout : Layout} {s : Reader} {g : Segment} {e : Fault}
    (h : s.feed layout g = .error e) :
    e = .malformed g.line g.text.trim ∧ g.text.trim ≠ [] := by
  unfold feed at h
  split at h
  · cases h
  · cases h
  · rename_i empty _
    unfold readStatement at h
    split at h
    · cases h
      exact ⟨rfl, empty⟩
    · cases h
    · cases h

/-- The segments above the one that cannot be read are read. -/
theorem feedAll_error {layout : Layout} {s : Reader} {gs : List Segment} {e : Fault}
    (h : s.feedAll layout gs = .error e) :
    ∃ above g below s', gs = above ++ g :: below ∧ s.feedAll layout above = .ok s' ∧
      s'.feed layout g = .error e := by
  induction gs generalizing s with
  | nil => cases h
  | cons g gs ih =>
    unfold feedAll at h
    split at h
    · rename_i s₁ hg
      obtain ⟨above, g', below, s', rfl, taken, rejected⟩ := ih h
      exact ⟨g :: above, g', below, s', rfl, by rw [feedAll, hg]; exact taken, rejected⟩
    · rename_i hg
      cases h
      exact ⟨[], g, gs, s, rfl, rfl, hg⟩

end Reader

namespace RowSet

variable {layout : Layout} {t : Text} {e : Fault}

theorem feedAll_of_ofText_error (h : ofText layout t = .error e) :
    Reader.feedAll layout {} (Segment.ofText t.normalizeNewlines) = .error e := by
  unfold ofText at h
  cases hf : Reader.feedAll layout {} (Segment.ofText t.normalizeNewlines) with
  | ok s =>
    rw [hf] at h
    cases h
  | error e' =>
    rw [hf] at h
    exact congrArg Except.error (Except.error.inj h)

theorem ofText_error (h : ofText layout t = .error e) :
    ∃ line content, e = .malformed line content := by
  obtain ⟨_, g, _, _, -, -, rejected⟩ := Reader.feedAll_error (feedAll_of_ofText_error h)
  exact ⟨g.line, g.text.trim, (Reader.feed_error rejected).1⟩

end RowSet

/-- A file gives no rows for one of the three reasons, and for no other. -/
theorem Folder.fails_iff {folder : Folder} {layout : Layout} {path : Text} {e : Fault} :
    folder.Fails layout path e ↔ folder.rowsOf layout path = .error e := by
  unfold Folder.rowsOf RowSet.ofBytes
  constructor
  · rintro (absent | ⟨present, flawed⟩ | ⟨present, decoded, unreadable⟩)
    · rw [absent]
    · simp only [present, flawed]
    · simp only [present, decoded, unreadable]
  · intro h
    split at h
    · rename_i bytes present
      split at h
      · rename_i t decoded
        obtain ⟨line, content, rfl⟩ := RowSet.ofText_error h
        exact .malformed present decoded h
      · rename_i flaw flawed
        cases h
        exact .encoding present flawed
    · rename_i absent
      cases h
      exact .missing absent

namespace Loader

/-! ## Going through the files -/

theorem mergeFiles_ok {layout : Layout} {folder : Folder} {paths : List Text}
    {files : List RowSet} (h : paths.map (folder.rowsOf layout) = files.map .ok) (s : RowSet) :
    mergeFiles layout folder s paths = .ok (files.foldl RowSet.merge s) := by
  induction paths generalizing files s with
  | nil =>
    cases files with
    | nil => rfl
    | cons _ _ => cases h
  | cons path paths ih =>
    cases files with
    | nil => cases h
    | cons file files =>
      obtain ⟨hfile, hfiles⟩ := List.cons.inj h
      unfold mergeFiles
      rw [hfile]
      exact ih hfiles (s.merge file)

/-- The merged rows of the first files. -/
theorem mergeFiles_take {layout : Layout} {folder : Folder} {paths : List Text}
    {files : List RowSet} (h : paths.map (folder.rowsOf layout) = files.map .ok) (i : Nat) :
    mergeFiles layout folder {} (paths.take i) = .ok (RowSet.mergeAll (files.take i)) := by
  apply mergeFiles_ok
  rw [List.map_take, List.map_take, h]

theorem mergeFiles_error {layout : Layout} {folder : Folder} {pre post : List Text} {path : Text}
    {e : Fault} (hpre : ∀ p ∈ pre, ∃ s, folder.rowsOf layout p = .ok s)
    (he : folder.rowsOf layout path = .error e) (s : RowSet) :
    mergeFiles layout folder s (pre ++ path :: post) = .error e := by
  induction pre generalizing s with
  | nil =>
    rw [List.nil_append]
    unfold mergeFiles
    rw [he]
  | cons p pre ih =>
    obtain ⟨file, hfile⟩ := hpre p List.mem_cons_self
    rw [List.cons_append]
    unfold mergeFiles
    rw [hfile]
    exact ih (fun q hq => hpre q (List.mem_cons_of_mem p hq)) _

theorem document_of_files {l : Loader} {folder : Folder} {files : List RowSet}
    (h : l.sources.map (folder.rowsOf l.layout) = files.map .ok) :
    l.document folder = .ok ((RowSet.mergeAll files).arrange l.layout) := by
  unfold document rows
  rw [mergeFiles_ok h]
  rfl

/-- A load whose files all give rows exports the document of the merged
    rows. -/
theorem attempt_of_document {l : Loader} {folder : Folder} {d : Document}
    (h : l.document folder = .ok d) :
    ∃ report, l.attempt folder =
      (.ok report, { l with target := (l.target.exportDocument l.replace d).1 }) := by
  unfold attempt load
  rw [h]
  exact ⟨_, rfl⟩

/-- A load that fails changes nothing. -/
theorem attempt_of_fault {l : Loader} {folder : Folder} {e : Fault}
    (h : l.document folder = .error e) : l.attempt folder = (.error e, l) := by
  unfold attempt load
  rw [h]
  rfl

/-! ## Which file decides -/

/-- **Loading several files.**  If a file gives no rows, the load ends with
    the reason of the first such file, and the loader, its target included, is
    as it was.  Otherwise the load succeeds and exports a document in which

    * a variable has an entry exactly if it is live in some file, and no
      variable has two;
    * its value is the one in the last file where it is live;
    * a variable that is live in no file has one row, a disabled one, with the
      value of the last file that mentions it;
    * a comment that a variable has among the merged rows of the first files
      it does not lose to later ones. -/
theorem attempt_resolves (l : Loader) (folder : Folder) :
    (∀ pre path post e, l.sources = pre ++ path :: post →
      (∀ p ∈ pre, ∃ s, folder.rowsOf l.layout p = .ok s) → folder.Fails l.layout path e →
      l.attempt folder = (.error e, l)) ∧
    (∀ files, l.sources.map (folder.rowsOf l.layout) = files.map .ok →
      ∃ d report, l.document folder = .ok d ∧
        l.attempt folder =
          (.ok report, { l with target := (l.target.exportDocument l.replace d).1 }) ∧
        (∀ k, (∃ v, (k, v) ∈ d.entries) ↔ ∃ s ∈ files, ∃ v, s.Live k v) ∧
        (d.entries.map Prod.fst).Nodup ∧
        (∀ k v, (k, v) ∈ d.entries ↔ RowSet.LastLive files k v) ∧
        (∀ k v, (∀ s ∈ files, ∀ w, ¬ s.Live k w) → RowSet.LastMention files k v →
          ∃ r, d.rows.filter (·.1 == k) = [(k, r)] ∧ r.disabled = true ∧ r.value = v) ∧
        (∀ k i j, i ≤ j → ∃ earlier later,
          mergeFiles l.layout folder {} (l.sources.take i) = .ok earlier ∧
          mergeFiles l.layout folder {} (l.sources.take j) = .ok later ∧
          ∀ r, earlier.find? k = some r → r.comment ≠ [] →
            ∃ r', later.find? k = some r' ∧ r'.comment ≠ [])) := by
  constructor
  · intro pre path post e hsources hpre hfails
    apply attempt_of_fault
    unfold document rows
    rw [hsources, mergeFiles_error hpre (Folder.fails_iff.1 hfails)]
    rfl
  · intro files hfiles
    -- entries are the live rows of the merged files, so the merged files decide
    have hd := document_of_files hfiles
    obtain ⟨report, hreport⟩ := attempt_of_document hd
    have entry : ∀ k v, (k, v) ∈ ((RowSet.mergeAll files).arrange l.layout).entries ↔
        RowSet.LastLive files k v := fun k v =>
      (RowSet.mem_entries_arrange _ l.layout).trans RowSet.live_mergeAll_iff
    refine ⟨_, report, hd, hreport, fun k => ⟨?_, ?_⟩, RowSet.nodup_entries_arrange _ _, entry,
      fun k v nowhere last => ?_, fun k i j hij => ⟨_, _, mergeFiles_take hfiles i,
        mergeFiles_take hfiles j, fun r => RowSet.comment_mergeAll_take hij⟩⟩
    · rintro ⟨v, hv⟩
      obtain ⟨pre, s, post, rfl, live, -⟩ := (entry k v).1 hv
      exact ⟨s, by simp, v, live⟩
    · intro somewhere
      obtain ⟨v, hv⟩ := RowSet.exists_lastLive somewhere
      exact ⟨v, (entry k v).2 hv⟩
    · obtain ⟨m, hm, dis, rfl⟩ := RowSet.disabled_mergeAll_of_lastMention nowhere last
      obtain ⟨r, hr, rfl⟩ := RowSet.exists_mem_rows_arrange _ l.layout hm
      have single := filter_eq_singleton (RowSet.nodup_keys_arrange _ l.layout) hr
      exact ⟨r, single, dis, rfl⟩

/-- Three files: `X` is disabled, live, disabled; `Y` is live, disabled,
    missing; `Z` is disabled, disabled, missing.  With another second file,
    one that is missing, nothing is loaded. -/
theorem attempt_resolves_three_files :
    let folder : Folder := Catalog.ofList
      [("a".toList, Utf8.encode "# X=1\nY=p\n# note\n# Z=1".toList),
        ("b".toList, Utf8.encode "X=2\n# Y=q\n# Z=2".toList),
        ("c".toList, Utf8.encode "# X=3".toList)]
    let l : Loader := { paths := ["a".toList, "b".toList, "c".toList] }
    let broken : Loader := { paths := ["a".toList, "d".toList, "b".toList] }
    broken.attempt folder = (.error .missingFile, broken) ∧
      ∃ d, l.document folder = .ok d ∧ ("X".toList, "2".toList) ∈ d.entries ∧
        ("Y".toList, "p".toList) ∈ d.entries ∧
        ∃ r, d.rows.filter (·.1 == "Z".toList) = [("Z".toList, r)] ∧ r.disabled = true ∧
          r.value = "2".toList := by
  intro folder l broken
  constructor
  · refine (attempt_resolves broken folder).1 ["a".toList] "d".toList ["b".toList] .missingFile
      rfl (fun p hp => ?_) (.missing (by decide))
    rw [List.mem_singleton.1 hp]
    have read : ((folder.rowsOf broken.layout "a".toList).toOption.isSome) = true := by
      decide +kernel
    cases h : folder.rowsOf broken.layout "a".toList with
    | ok s => exact ⟨s, rfl⟩
    | error e => rw [h] at read; cases read
  · let file (path : String) : RowSet := (folder.rowsOf l.layout path.toList).toOption.getD {}
    have hfiles : l.sources.map (folder.rowsOf l.layout) =
        [file "a", file "b", file "c"].map .ok := by decide +kernel
    obtain ⟨d, -, hd, -, -, -, entry, disabled, -⟩ := (attempt_resolves l folder).2 _ hfiles
    refine ⟨d, hd, (entry _ _).2 ?_, (entry _ _).2 ?_, disabled _ _ ?_ ?_⟩
    · have after : ∀ t ∈ [file "c"], RowSet.NotLive (t.find? "X".toList) := by decide +kernel
      exact ⟨[file "a"], file "b", _, rfl, by decide +kernel, fun t ht =>
        RowSet.notLive_iff.1 (after t ht)⟩
    · have after : ∀ t ∈ [file "b", file "c"], RowSet.NotLive (t.find? "Y".toList) := by
        decide +kernel
      exact ⟨[], file "a", _, rfl, by decide +kernel, fun t ht =>
        RowSet.notLive_iff.1 (after t ht)⟩
    · have nowhere : ∀ t ∈ [file "a", file "b", file "c"], RowSet.NotLive (t.find? "Z".toList) := by
        decide +kernel
      exact fun t ht => RowSet.notLive_iff.1 (nowhere t ht)
    · have found : ((file "b").find? "Z".toList).map Row.value = some "2".toList := by
        decide +kernel
      obtain ⟨r, hr, hv⟩ := Option.map_eq_some_iff.1 found
      exact ⟨[file "a"], file "b", [file "c"], r, rfl, hr, hv, by decide +kernel⟩

end Loader

end EnvFile
