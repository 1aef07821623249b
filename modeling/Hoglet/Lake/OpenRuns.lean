import Hoglet.Lake.Runs

/-! Sweeping the graveyard as a run of changes, and what opening the lake leaves. -/
namespace Hoglet.Lake
open Capture Projections

section snapshot

private theorem addRow_files (generation : Nat) (projects : Table String ProjectFiles) (r : Nat × FileRow) (p : String)
    (d : NaiveDate) : (⟨generation, addRow projects r⟩ : Snapshot).files p d =
      (⟨generation, projects⟩ : Snapshot).files p d ++ [r.2.toFile r.1].filter fun file => file.projectId = p ∧ file.day = d := by
  simp only [Snapshot.files, Snapshot.project, addRow, Table.get_put]
  by_cases hp : p = r.2.projectId
  · subst hp
    rw [if_pos rfl, Option.getD_some, Table.get_upsert]
    by_cases hd : d = r.2.day
    · subst hd
      cases ((projects.get r.2.projectId).getD .none).days.get r.2.day <;> simp [FileRow.toFile]
    · simp [FileRow.toFile, hd, Ne.symm hd]
  · simp [FileRow.toFile, hp, Ne.symm hp]

/-- What a snapshot says of a project's version: it is zero when the project has no files, and it is a
generation from one on otherwise. -/
structure Snapshot.Versioned (s : Snapshot) (bound : Nat) : Prop extends s.Trim where
  positive : ∀ p project, s.projects.get p = some project → 0 < project.version ∧ project.version ≤ bound

private theorem addRow_versioned {generation bound : Nat} {projects : Table String ProjectFiles} {r : Nat × FileRow}
    (h : (⟨generation, projects⟩ : Snapshot).Versioned bound) (hpos : 0 < r.2.createdGeneration)
    (hle : r.2.createdGeneration ≤ bound) : (⟨generation, addRow projects r⟩ : Snapshot).Versioned bound := by
  set old := (projects.get r.2.projectId).getD .none with hold
  have hget : ∀ p project, (addRow projects r).get p = some project → project = ⟨max old.version r.2.createdGeneration,
      old.days.upsert r.2.day [r.2.toFile r.1] (· ++ [r.2.toFile r.1])⟩ ∨ projects.get p = some project := by
    intro p project hp
    rw [addRow, Table.get_put] at hp
    split at hp
    · exact .inl (Option.some.inj hp).symm
    · exact .inr hp
  have hold_files : ∀ d files, old.days.get d = some files → files ≠ [] := by
    intro d files hd
    cases hp : projects.get r.2.projectId with
    | none => simp [hold, hp, ProjectFiles.none] at hd
    | some project => exact h.files _ project d files hp (by simpa [hold, hp] using hd)
  have hold_version : old.version ≤ bound := by
    cases hp : projects.get r.2.projectId with
    | none => simp [hold, hp, ProjectFiles.none]
    | some project => simpa [hold, hp] using (h.positive _ project hp).2
  refine ⟨⟨fun p project hp => ?_, fun p project d files hp hd => ?_⟩, fun p project hp => ?_⟩
  · rcases hget p project hp with rfl | hp
    · exact Table.rows_isEmpty.mpr ⟨r.2.day, _, by rw [Table.get_upsert, if_pos rfl]⟩
    · exact h.days p project hp
  · rcases hget p project hp with rfl | hp
    · rw [Table.get_upsert] at hd
      split at hd
      · cases hg : old.days.get r.2.day <;> simp only [hg, Option.map_none, Option.map_some, Option.getD_none,
          Option.getD_some, Option.some.injEq] at hd <;> simp [← hd]
      · exact hold_files d files hd
    · exact h.files p project d files hp hd
  · rcases hget p project hp with rfl | hp
    · exact ⟨hpos.trans_le (le_max_right _ _), max_le hold_version hle⟩
    · exact h.positive p project hp

/-- The snapshot of an opened lake tells its projects' versions. -/
theorem Database.Sound.openSnapshot_versioned {db : Database} (h : db.Sound) :
    db.openSnapshot.Versioned db.state.generation := by
  have hfold : ∀ (rows : List (Nat × FileRow)) (projects : Table String ProjectFiles),
      (∀ r ∈ rows, 0 < r.2.createdGeneration ∧ r.2.createdGeneration ≤ db.state.generation) →
      (⟨db.state.generation, projects⟩ : Snapshot).Versioned db.state.generation →
      (⟨db.state.generation, rows.foldl addRow projects⟩ : Snapshot).Versioned db.state.generation := by
    intro rows
    induction rows with
    | nil => exact fun _ _ h => h
    | cons r rows ih =>
      intro projects hrows hprojects
      obtain ⟨hpos, hle⟩ := hrows r List.mem_cons_self
      exact ih _ (fun r hr => hrows r (List.mem_cons_of_mem _ hr)) (addRow_versioned hprojects hpos hle)
  refine hfold _ _ (fun r hr => ?_) ⟨⟨fun _ _ h => ?_, fun _ _ _ _ h => ?_⟩, fun _ _ h => ?_⟩
  · obtain ⟨-, -, hle, hpos⟩ := h.named r.1 r.2 (Table.get_eq_some.mpr (h.rowsById ▸ hr))
    exact ⟨hpos, hle⟩
  all_goals cases h

/-- The snapshot of an opened lake shows the rows of the catalogue. -/
theorem Database.openSnapshot_files (db : Database) (p : String) (d : NaiveDate) :
    db.openSnapshot.files p d = (db.rowsById.map fun r => r.2.toFile r.1).filter fun file => file.projectId = p ∧ file.day = d := by
  have hfold : ∀ (rows : List (Nat × FileRow)) (projects : Table String ProjectFiles),
      (⟨db.state.generation, rows.foldl addRow projects⟩ : Snapshot).files p d =
        (⟨db.state.generation, projects⟩ : Snapshot).files p d ++
          (rows.map fun r => r.2.toFile r.1).filter fun file => file.projectId = p ∧ file.day = d := by
    intro rows
    induction rows with
    | nil => simp
    | cons r rows ih =>
      intro projects
      rw [List.foldl_cons, ih, addRow_files, List.map_cons, List.append_assoc, ← List.filter_append]
      rfl
  exact hfold db.rowsById .empty

end snapshot

section sweep
variable {ν U : Type} {m : Machine} {w w' : World ν U}

/-- A sweep removes files that were buried, and keeps the others buried. -/
theorem sweepFiles_works {held : LakeFile → Bool} {files : List LakeFile} (hnodup : (files.map LakeFile.id).Nodup) :
    Works (fun p => ∃ file ∈ files, p = file.path) (sweepFiles m held files) w fun r _ =>
      r.2.Sublist files ∧ (∀ id ∈ r.1, id ∈ files.map LakeFile.id ∧ id ∉ r.2.map LakeFile.id) := by
  induction files generalizing w with
  | nil => exact .pure ⟨.slnil, by simp⟩
  | cons file files ih =>
    rw [List.map_cons, List.nodup_cons] at hnodup
    have hrest : ∀ w : World ν U, Works (fun p => ∃ f ∈ file :: files, p = f.path) (sweepFiles m held files) w fun r _ =>
        r.2.Sublist files ∧ (∀ id ∈ r.1, id ∈ files.map LakeFile.id ∧ id ∉ r.2.map LakeFile.id) :=
      fun w => (ih hnodup.2).widen fun _ ht => ht.mono fun p hp => by
        obtain ⟨f, hf, hp⟩ := hp
        exact ⟨f, List.mem_cons_of_mem _ hf, hp⟩
    have hkeep : ∀ w : World ν U, Works (fun p => ∃ f ∈ file :: files, p = f.path)
        (do
          let swept ← sweepFiles m held files
          return (swept.1, file :: swept.2)) w fun r _ =>
        r.2.Sublist (file :: files) ∧ (∀ id ∈ r.1, id ∈ (file :: files).map LakeFile.id ∧ id ∉ r.2.map LakeFile.id) := by
      refine fun w => (hrest w).bind fun r _ _ hr => .pure ⟨hr.1.cons_cons file, fun id hid => ?_⟩
      obtain ⟨hin, hnot⟩ := hr.2 id hid
      refine ⟨List.mem_cons_of_mem _ hin, ?_⟩
      rw [List.map_cons, List.mem_cons, not_or]
      exact ⟨fun heq => hnodup.1 (heq ▸ hin), hnot⟩
    rw [sweepFiles]
    split
    · exact hkeep w
    refine (attempt_along ((removeFile_works file.path).widen fun _ ht => ht.mono ?_)).bind fun r w₁ _ _ => ?_
    · rintro _ rfl
      exact ⟨file, List.mem_cons_self, rfl⟩
    cases r with
    | error e => exact hkeep w₁
    | ok r =>
      refine (hrest w₁).bind fun r _ _ hr => .pure ⟨hr.1.cons file, fun id hid => ?_⟩
      obtain ⟨hs, hr⟩ := hr
      rcases List.mem_cons.mp hid with rfl | hid
      · exact ⟨List.mem_cons_self, fun hin => hnodup.1 ((hs.map _).subset hin)⟩
      · exact ⟨List.mem_cons_of_mem _ (hr id hid).1, (hr id hid).2⟩

end sweep

section removal
variable {ν U : Type} {m : Machine} {w w' : World ν U}

theorem removeAll_works {paths : List Path} : Works (· ∈ paths) (removeAll m paths) w fun _ w' =>
    (∀ path ∈ paths, w'.disk.get path = none) ∧ ∀ p, w.disk.get p = none → w'.disk.get p = none := by
  induction paths generalizing w with
  | nil => exact .pure ⟨by simp, fun _ h => h⟩
  | cons path paths ih =>
    refine ((removeFile_works path).widen fun _ ht => ht.mono ?_).bind fun _ w₁ _ hw₁ => ?_
    · rintro _ rfl
      exact List.mem_cons_self
    obtain ⟨hgone, hkept⟩ := hw₁
    refine (ih.widen fun _ ht => ht.mono fun _ => List.mem_cons_of_mem _).mono fun _ w₂ hw₂ => ?_
    obtain ⟨hall, hkept'⟩ := hw₂
    refine ⟨fun p hp => ?_, fun p hp => hkept' p (hkept p hp)⟩
    rcases List.mem_cons.mp hp with rfl | hp
    · exact hkept' p hgone
    · exact hall p hp

end removal

section runs
variable {ν U : Type} [DecidableEq U] {m : Machine} {K : Crates ν U} {duck : Duck ν U} {ok : Commit ν U → Prop}
  {w w' : World ν U}

/-- Rows were deleted, and nothing else happened. -/
structure Purges (K : Crates ν U) (duck : Duck ν U) (ok : Commit ν U → Prop) (w w' : World ν U) : Prop where
  changes : Changes K duck ok w w'
  graveyard : w'.graveyard = w.graveyard
  rows : ∀ id row, w'.db.files.get id = some row → w.db.files.get id = some row

instance : Std.Refl (Purges K duck ok) := ⟨fun _ => ⟨.refl, rfl, fun _ _ h => h⟩⟩
instance : IsTrans (World ν U) (Purges K duck ok) :=
  ⟨fun _ _ _ h h' => ⟨h.changes.trans h'.changes, h'.graveyard.trans h.graveyard, fun id row hr => h.rows id row (h'.rows id row hr)⟩⟩

theorem deleteRows_along {ids : List Nat} (hdead : ∀ id ∈ ids, ∀ row, w.db.files.get id = some row → row.live = false)
    (hburied : ∀ id ∈ ids, id ∉ w.graveyard.map LakeFile.id) :
    Along (Purges K duck ok) (deleteRows m ids) w fun _ _ => True := by
  induction ids generalizing w with
  | nil => exact .pure trivial
  | cons fileId ids ih =>
    have hidle : ∀ n, Purges K duck ok w { w with ops := n } := fun n => ⟨.quiet fun _ _ => ⟨rfl, rfl⟩, rfl, fun _ _ h => h⟩
    have hgone : ∀ n, Purges K duck ok w
        { w with db := { w.db with files := w.db.files.delete fun i _ => i = fileId }, ops := n } := fun n => by
      refine ⟨(hidle n).changes.trans (Changes.single (by simp) (.purged (fun i row hrow hi => ?_) fun file hf row => ?_)), rfl,
        fun _ _ h => (Table.get_delete_eq_some.mp h).1⟩
      · obtain rfl := of_decide_eq_true hi
        exact hdead i List.mem_cons_self row hrow
      · refine decide_eq_false fun heq => hburied fileId List.mem_cons_self (heq ▸ List.mem_map_of_mem hf)
    have hop : Along (Purges K duck ok)
        (operation m .database (fun w => { w with db.files := w.db.files.delete fun i _ => i = fileId }) id) w fun _ _ => True := by
      refine (operation_ends _ _ _).mono (fun _ w' hw' => ⟨hw' ▸ hgone _, trivial⟩) fun _ w' hw' => ?_
      rw [hw'.elim (fun h => h) fun h => h]
      exact hidle _
    have hdone : Along (Purges K duck ok) (ignoringErrors
        (operation m .database (fun w => { w with db.files := w.db.files.delete fun i _ => i = fileId }) id)) w fun _ _ => True :=
      (attempt_along hop).bind fun _ _ _ _ => .pure trivial
    refine hdone.bind fun _ w₁ h₁ _ => ih (fun i hi row hrow => ?_) fun i hi => ?_
    · exact hdead i (List.mem_cons_of_mem _ hi) row (h₁.rows i row hrow)
    · rw [h₁.graveyard]
      exact hburied i (List.mem_cons_of_mem _ hi)

theorem sweepGraveyard_runs {held : LakeFile → Bool} : Runs K duck ok (sweepGraveyard m held) w fun _ _ => True := by
  intro hw
  have hlive : ∀ file ∈ w.db.liveFiles, ¬ ∃ f ∈ w.graveyard, file.path = f.path := by
    rintro file hf ⟨f, hg, hpath⟩
    obtain ⟨row, hrow, hl, hp⟩ := hw.buried f hg
    obtain ⟨row', hrow', hl', hfile⟩ := hw.db.mem_liveFiles.mp hf
    have hid := hw.db.unique _ _ _ _ hrow hrow' (by rw [hp, ← hpath, ← hfile]; rfl)
    rw [hid, hrow', Option.some.injEq] at hrow
    rw [hrow, hl] at hl'
    cases hl'
  refine Ends.bind (Ends.get ?_)
  refine (sweepFiles_works hw.buriedOnce).ends (fun r w₁ ht ⟨hs, hr⟩ => ?_) fun e _ ht => .changes (ht.changes hw.toSound hlive) e
  have hc : Changes K duck ok w { w₁ with graveyard := r.2 } := by
    refine (ht.changes hw.toSound hlive).trans (Changes.single (by simp) (.unburied ?_))
    rw [ht.same]
    exact hs
  have hrun := hc.running hw
  refine Ends.bind (Ends.modify ?_)
  have hdead : ∀ id ∈ r.1, ∀ row, w₁.db.files.get id = some row → row.live = false := by
    intro id hid row hrow
    obtain ⟨file, hf, rfl⟩ := List.mem_map.mp (hr id hid).1
    obtain ⟨row', hrow', hl, -⟩ := hw.buried file hf
    rw [ht.db, hrow', Option.some.injEq] at hrow
    rwa [← hrow]
  have hdelete : Along (Purges K duck ok) (deleteRows m r.1) { w₁ with graveyard := r.2 } fun _ _ => True :=
    deleteRows_along hdead fun id hid => (hr id hid).2
  exact hdelete.ends (fun _ _ h _ => Ends.pure ⟨hc.trans h.changes, trivial⟩) fun e _ h => .changes (hc.trans h.changes) e

/-- What the lake is when it has been opened over what was left. -/
structure World.Opened (w : World ν U) : Prop where
  running : w.Running
  versioned : w.snapshot.Versioned w.db.state.generation
  readers : w.replaced = []
  rows : ∀ id row, w.db.files.get id = some row → row.live = true
  orphans : ∀ p content, w.disk.get p = some content → ∃ file ∈ w.db.liveFiles, file.path = p

theorem openLake_ends (hw : w.Sound) (hg : w.graveyard = []) :
    Ends (openLake m) w
      (fun _ w' => w'.Opened ∧ ∃ w'', Changes K duck (fun _ => False) w w'' ∧ w'.Remains w'')
      fun _ w' => Changes K duck (fun _ => False) w w' := by
  have hidle : ∀ (_ : PipelineError) w', Idled w w' → Changes K duck (fun _ => False) w w' := fun _ _ ht => ht.changes
  refine (statement_works (.ok ())).ends (fun _ w₁ ht₁ _ => ?_) hidle
  refine Ends.bind (Ends.get ?_)
  obtain ⟨n, rfl⟩ := ht₁
  simp only
  set retired := (w.db.files.select fun _ row => !row.live).map fun r => r.2.path with hretired
  have hlive : ∀ file ∈ w.db.liveFiles, file.path ∉ retired := by
    intro file hf hmem
    obtain ⟨row, hrow, hl, hfile⟩ := hw.db.mem_liveFiles.mp hf
    obtain ⟨r, hr, hpath⟩ := List.mem_map.mp hmem
    obtain ⟨hr, hdead⟩ := List.mem_filter.mp hr
    have hid := hw.db.unique _ _ _ _ (Table.get_eq_some.mpr hr) hrow (by rw [hpath, ← hfile]; rfl)
    rw [← hid, Table.get_eq_some.mpr hr, Option.some.injEq] at hrow
    rw [← hrow] at hl
    simp [hl] at hdead
  have hchanges : ∀ w', Touches (· ∈ retired) { w with ops := n } w' → Changes K duck (fun _ => False) w w' :=
    fun w' ht => ((Touches.tick w n).trans ht).changes hw hlive
  refine removeAll_works.ends (fun _ w₂ ht₂ _ => ?_) fun _ => hchanges
  have hc₂ := hchanges w₂ ht₂
  have hw₂ : w₂.Sound := Changes.sound hw hc₂
  refine Ends.bind ((operation_ends _ _ _).mono (fun _ w₃ hw₃ => ?_) fun e w' hw' => ?_)
  swap
  · refine hc₂.trans (Idled.changes ⟨w₂.ops + 1, ?_⟩)
    exact hw'.elim (fun h => h) fun h => h
  have hc₃ : Changes K duck (fun _ => False) w w₃ := by
    refine (hc₂.trans (Idled.changes ⟨w₂.ops + 1, rfl⟩)).trans ?_
    rw [hw₃]
    refine Changes.single (by simp) (.purged (fun id row _ hdead => by simpa using hdead) fun file hf => ?_)
    change file ∈ w₂.graveyard at hf
    rw [ht₂.same] at hf
    rw [show w.graveyard = [] from hg] at hf
    cases hf
  have hrows : ∀ id row, w₃.db.files.get id = some row → row.live = true := by
    intro id row hrow
    rw [hw₃] at hrow
    simpa using (Table.get_delete_eq_some.mp hrow).2
  refine (statement_works (.ok ())).ends (fun _ w₄ ht₄ _ => ?_) fun e _ ht => hc₃.trans ht.changes
  refine Ends.bind (Ends.get ?_)
  obtain ⟨n', rfl⟩ := ht₄
  refine (idle_works _).ends (fun _ w₅ ht₅ _ => ?_) fun e _ ht => (hc₃.trans (Idled.changes ⟨n', rfl⟩)).trans ht.changes
  refine Ends.bind (Ends.get ?_)
  obtain ⟨n'', rfl⟩ := ht₅
  simp only
  set v : World ν U := { w₃ with ops := n'' } with hv
  have hcv : Changes K duck (fun _ => False) w v := hc₃.trans (Idled.changes ⟨n'', rfl⟩)
  have hsound : v.Sound := Changes.sound hw hcv
  have hall : v.db.rowsById.map (fun r => r.2.toFile r.1) = v.db.liveFiles := by
    rw [Database.liveFiles, List.filter_eq_self.mpr fun r hr => ?_]
    rw [hsound.db.rowsById] at hr
    exact hrows r.1 r.2 (Table.get_eq_some.mpr hr)
  have hpaths : v.db.rowsById.map (fun r => r.2.path) = v.db.liveFiles.map LakeFile.path := by
    rw [← hall, List.map_map]
    rfl
  split
  · exact Ends.throw hcv
  have hkept : ∀ file ∈ v.db.liveFiles, ¬ file.path ∈
      (v.disk.rows.map Prod.fst).filter (· ∉ v.db.rowsById.map fun r => r.2.path) := by
    intro file hf hmem
    rw [hpaths, List.mem_filter] at hmem
    exact of_decide_eq_true hmem.2 (List.mem_map_of_mem hf)
  refine removeAll_works.ends (fun _ w₆ ht₆ hremoved => ?_) fun e w' ht => hcv.trans (ht.changes hsound hkept)
  obtain ⟨hgone, hnone⟩ := hremoved
  have hc₆ : Changes K duck (fun _ => False) w w₆ := hcv.trans (ht₆.changes hsound hkept)
  have hw₆ : w₆.Sound := Changes.sound hw hc₆
  have hdb : w₆.db = v.db := ht₆.db
  refine Ends.modify ⟨⟨⟨⟨hw₆.db, hw₆.counted, hw₆.there⟩, ?_, fun p d => ?_, ?_, by simp, by simp⟩, ?_, rfl, ?_, ?_⟩,
    w₆, hc₆, rfl, rfl, rfl, rfl⟩
  · rw [hdb]
    rfl
  · rw [hdb, ← hall]
    exact Database.openSnapshot_files _ p d
  · exact hsound.db.openSnapshot_versioned.toTrim
  · rw [hdb]
    exact hsound.db.openSnapshot_versioned
  · intro id row hrow
    rw [hdb] at hrow
    exact hrows id row hrow
  · intro p content hp
    change w₆.disk.get p = some content at hp
    by_contra hnot
    have hnot' : p ∉ v.db.rowsById.map fun r => r.2.path := by
      rw [hpaths]
      intro hmem
      obtain ⟨file, hf, rfl⟩ := List.mem_map.mp hmem
      exact hnot ⟨file, hdb ▸ hf, rfl⟩
    cases hv' : v.disk.get p with
    | none =>
      rw [hnone p hv'] at hp
      cases hp
    | some content' =>
      rw [hgone p (List.mem_filter.mpr ⟨List.mem_map_of_mem (f := Prod.fst) (Table.get_eq_some.mp hv'), decide_eq_true hnot'⟩)] at hp
      cases hp

end runs
end Hoglet.Lake
