import Hoglet.Lake.Runs

/-! Compaction, retention and erasure as runs of changes. -/
namespace Hoglet.Lake
open Capture Projections

section compactor
variable {ν U : Type} [DecidableEq U] {m : Machine} {K : Crates ν U} {duck : Duck ν U} {ok : Commit ν U → Prop}
  {w w' : World ν U}

omit [DecidableEq U] in
theorem cleaningUp_ends {α : Type} {R : World ν U → World ν U → Prop} [IsTrans (World ν U) R] {x : Steps ν U α}
    {cleanup : Steps ν U Unit} {Q : α → World ν U → Prop} (h : Ends x w Q fun _ w' => R w w')
    (hc : ∀ w', R w w' → Along R cleanup w' fun _ _ => True) : Ends (cleaningUp x cleanup) w Q fun _ w' => R w w' := by
  refine Ends.bind ?_
  unfold Ends attempt at *
  cases hx : x w with
  | ok a w' =>
    simp only [hx] at h ⊢
    exact h
  | error e w' =>
    simp only [hx] at h
    have hcleaned : Ends (do cleanup; throw e) w' Q fun _ w' => R w w' :=
      Ends.bind (Ends.mono (hc w' h) (fun _ _ hr => Ends.throw (trans_of R h hr.1)) fun _ _ hr => trans_of R h hr)
    unfold Ends at hcleaned
    cases e <;> simp only <;> first | exact hcleaned | exact h

omit [DecidableEq U] in
/-- The paths that writing the file of a new generation touches. -/
private theorem not_live (hw : w.Sound) {projectId : String} {day : NaiveDate} {name : FileName}
    (hname : name.generation = w.db.state.generation + 1) {file : LakeFile} (hf : file ∈ w.db.liveFiles) :
    ¬ (file.path.temporary ∨ file.path = filePath projectId day name) := by
  obtain ⟨ht, hle⟩ := hw.live_path hf
  rintro (h | h)
  · rw [ht] at h
    cases h
  · rw [h] at hle
    simp only [filePath] at hle
    omega

omit [DecidableEq U] in
private theorem content_eq {S : Path → Prop} (h : Touches S w w') {files : List LakeFile}
    (hs : ∀ file ∈ files, ¬ S file.path) : files.flatMap w'.content = files.flatMap w.content := by
  refine List.flatMap_congr fun file hf => ?_
  rw [World.content, World.content, h.disk _ (hs file hf)]

/-- What a merge leaves: the new file in the place of its inputs, with their rows. -/
structure World.Merged (duck : Duck ν U) (w w' : World ν U) (partition : Partition) (inputs : List LakeFile) (file : LakeFile) : Prop where
  live : w'.db.liveFiles = w.db.liveFiles.filter (·.id ∉ inputs.map LakeFile.id) ++ [file]
  placed : file.projectId = partition.projectId ∧ file.day = partition.day
  rows : w'.content file = duck.distinct (inputs.flatMap w.content)
  others : ∀ f ∈ w.db.liveFiles, w'.content f = w.content f

/-- A merge that fails has only touched files that no live row names. -/
theorem merge_ends {partition : Partition} {inputs : List LakeFile} {now : Int} (hok : ok .merged)
    (hin : inputs ⊆ w.snapshot.files partition.projectId partition.day) (hw : w.Running) :
    Ends (merge m duck partition inputs now) w
      (fun _ w' => Changes K duck ok w w' ∧ ∃ file, w.Merged duck w' partition inputs file) fun _ w' =>
        ∃ S : Path → Prop, Touches S w w' ∧ ∀ file ∈ w.db.liveFiles, ¬ S file.path := by
  refine Ends.bind (Ends.get ?_)
  simp only
  set generation := w.snapshot.generation + 1 with hgen
  set path := filePath partition.projectId partition.day (.compacted generation) with hpath
  set S : Path → Prop := fun p => p.temporary ∨ p = path
  have hlive : ∀ file ∈ w.db.liveFiles, ¬ S file.path := fun file hf =>
    not_live hw.toSound (congrArg (· + 1) hw.generation) hf
  have hinputs : ∀ file ∈ inputs, file ∈ w.db.liveFiles := fun file hf => (hw.mem_files.mp (hin hf)).1
  have hread : Works S (readParquet m inputs) w fun rows _ => rows = inputs.flatMap w.content :=
    (readParquet_works inputs).widen fun _ => Idled.touches _
  refine hread.ends (fun rows w₁ ht₁ hrows => ?_) fun _ _ ht => ⟨S, ht, hlive⟩
  refine (writeFile_works _ rfl _).ends (fun bytes w₂ ht₂ hholds => ?_) fun _ _ ht => ⟨S, ht₁.trans ht, hlive⟩
  have ht : Touches S w w₂ := ht₁.trans ht₂
  have hchanges : Changes K duck ok w w₂ := ht.changes hw.toSound hlive
  have hw₂ : w₂.Running := hchanges.running hw
  refine Ends.bind ((cleaningUp_ends (R := Touches (· = path)) (Q := fun added w₃ => ∃ tx n, w₃ = w₂.committing tx n ∧
    w₂.Commits K duck .merged tx added.toList (inputs.map LakeFile.id) ∧
    added.map (fun f => (f.projectId, f.day, f.path)) = some (partition.projectId, partition.day, path)) ?_ fun w₃ _ =>
      ignoringErrors_works (removeFile_works path)).mono ?_ fun e w₃ ht₃ => ?_)
  · refine (replaceFiles_ends hw₂ (by rw [ht.snapshot]) ?_ ?_ ?_).mono (fun added w₃ h => h) fun _ _ h => h.touches _
    · rintro f ⟨⟩
      exact ⟨rfl, rfl, _, hholds⟩
    · intro id hid
      obtain ⟨file, hf, rfl⟩ := List.mem_map.mp hid
      obtain ⟨row, hrow, -⟩ := hw.db.mem_liveFiles.mp (hinputs file hf)
      exact ⟨row, ht.db ▸ hrow⟩
    · intro added tx hadded htables hcheckpoint
      obtain ⟨file, rfl, heq⟩ := Option.map_eq_some_iff.mp hadded
      simp only [Prod.mk.injEq] at heq
      obtain ⟨hp, hd, hfile⟩ := heq
      refine .merged (by rw [hp, hd, ht.snapshot]; exact hin) ?_ htables hcheckpoint
      rw [hfile, content_eq ht fun file hf => hlive file (hinputs file hf), ← hrows]
      exact hholds.1
  · rintro added _ ⟨tx, n, rfl, hc, hadded⟩
    obtain ⟨file, rfl, heq⟩ := Option.map_eq_some_iff.mp hadded
    simp only [Prod.mk.injEq] at heq
    have hmerged : w.Merged duck (({ w₂ with ops := n } : World ν U).install tx [file] (inputs.map LakeFile.id)) partition inputs file := by
      refine ⟨ht.db ▸ hc.live, ⟨heq.1, heq.2.1⟩, ?_, fun f hf => ?_⟩
      · change (w₂.disk.get file.path).getD [] = _
        rw [heq.2.2, hholds.1, Option.getD_some, hrows]
      · change (w₂.disk.get f.path).getD [] = _
        rw [ht.disk _ (hlive f hf)]
        rfl
    have hnext : generation = tx.state.generation := by rw [hc.generation, hgen, hw.generation, ht.db]
    rw [hnext]
    exact Ends.bind (Ends.modify (Ends.pure ⟨hchanges.trans (hc.changes n hw₂ hok), file, hmerged⟩))
  · exact ⟨S, ht.trans (ht₃.mono fun _ => .inr), hlive⟩

theorem merge_runs {partition : Partition} {inputs : List LakeFile} {now : Int} (hok : ok .merged)
    (hin : inputs ⊆ w.snapshot.files partition.projectId partition.day) :
    Runs K duck ok (merge m duck partition inputs now) w fun _ w' => ∃ file, w.Merged duck w' partition inputs file := fun hw =>
  (merge_ends hok hin hw).mono (fun _ _ h => h) fun e _ ⟨_, ht, hs⟩ => .changes (ht.changes hw.toSound hs) e

theorem enforceRetention_runs {days : Nat} {today : NaiveDate} (hok : ok (.expired (today - days))) :
    Runs K duck ok (enforceRetention m days today) w fun _ _ => True := by
  intro hw
  refine Ends.bind (Ends.get ?_)
  simp only
  set cutoff := today - days
  set retired := ((w.snapshot.partitions.filter (·.day < cutoff)).flatMap (·.files)).map LakeFile.id with hretired
  have hmem : ∀ id ∈ retired, ∃ file ∈ w.db.liveFiles, file.id = id ∧ file.day < cutoff := by
    intro id hid
    obtain ⟨file, hf, rfl⟩ := List.mem_map.mp hid
    obtain ⟨partition, hp, hf⟩ := List.mem_flatMap.mp hf
    obtain ⟨hp, hday⟩ := List.mem_filter.mp hp
    rw [Snapshot.mem_partitions hp, hw.mem_files] at hf
    exact ⟨file, hf.1, rfl, hf.2.2 ▸ of_decide_eq_true hday⟩
  split
  · exact Runs.pure trivial hw
  refine Ends.bind (Ends.get ?_)
  have hleft : ∀ e w', Idled w w' → Left K duck ok w e w' := fun e _ ht => .changes ht.changes e
  refine (statement_works (.ok ())).ends (fun _ w₁ ht₁ _ => ?_) hleft
  refine (statement_works _).ends (fun tx₁ w₂ ht₂ hretire => ?_) fun e _ ht => hleft e _ (trans_of Idled ht₁ ht)
  refine (statement_works _).ends (fun tx₂ w₃ ht₃ hadvance => ?_) fun e _ ht =>
    hleft e _ (trans_of Idled (trans_of Idled ht₁ ht₂) ht)
  obtain ⟨n, rfl⟩ : Idled w w₃ := trans_of Idled (trans_of Idled ht₁ ht₂) ht₃
  refine Ends.bind ((commit_ends tx₂).mono (fun _ w₄ hw₄ => ?_) fun e _ ht => hleft e _ (trans_of Idled ⟨n, rfl⟩ ht))
  have hrow : ∀ id ∈ retired, ∃ row, w.db.files.get id = some row := by
    intro id hid
    obtain ⟨file, hf, rfl, -⟩ := hmem id hid
    obtain ⟨row, hrow, -⟩ := hw.db.mem_liveFiles.mp hf
    exact ⟨row, hrow⟩
  have hc : w.Commits K duck (.expired cutoff) tx₂ [] retired := by
    refine hw.commits (hw.db.inserted _ rfl rfl) hrow hretire hadvance (by simp) fun htables hcheckpoint => ?_
    refine .expired (fun file hf => ⟨fun hid => ?_, fun hday => ?_⟩) htables hcheckpoint
    · obtain ⟨file', hf', hid', hday⟩ := hmem _ hid
      rwa [World.Running.eq_of_id hw.db hf hf' hid'.symm]
    · obtain ⟨partition, hp, -, hd, hin⟩ := Snapshot.exists_partition (hw.mem_files.mpr ⟨hf, rfl, rfl⟩)
      refine List.mem_map_of_mem (List.mem_flatMap.mpr ⟨partition, List.mem_filter.mpr ⟨hp, ?_⟩, hin⟩)
      exact decide_eq_true (hd ▸ hday)
  rw [hw₄]
  exact activate_runs hw hok hc rfl (.pure trivial)

/-- The commits of one step of the compactor. -/
def stepCommits (retentionDays : Option Nat) (today : NaiveDate) (c : Commit ν U) : Prop :=
  c = .merged ∨ ∃ days, retentionDays = some days ∧ c = .expired (today - days)

/-- The inputs of a step's work are files of its partition. -/
theorem mergeWork_subset {s : Snapshot} {today : NaiveDate} {partition : Partition} {inputs : List LakeFile}
    (h : mergeWork s today = some (partition, inputs)) : inputs ⊆ s.files partition.projectId partition.day := by
  obtain ⟨hp, hinputs, -⟩ := mergeWork_some h
  rw [← Snapshot.mem_partitions hp, hinputs]
  exact mergeInputs_subset _ _

theorem mergeStep_runs {today : NaiveDate} {now : Int} (hok : ok .merged) :
    Runs K duck ok (mergeStep m duck today now) w fun _ _ => True := by
  refine .get ?_
  cases hwork : mergeWork w.snapshot today with
  | none => exact .pure trivial
  | some work => exact (merge_runs hok (mergeWork_subset hwork)).bind fun _ _ _ _ => .pure trivial

theorem compactStep_runs {retentionDays : Option Nat} {today : NaiveDate} {now : Int}
    (hok : ∀ c, stepCommits retentionDays today c → ok c) :
    Runs K duck ok (compactStep m duck retentionDays today now) w fun _ _ => True := by
  have hmerge : ∀ w' : World ν U, Runs K duck ok (mergeStep m duck today now) w' fun _ _ => True :=
    fun _ => mergeStep_runs (hok _ (.inl rfl))
  cases retentionDays with
  | none => exact hmerge w
  | some days =>
    refine (enforceRetention_runs (hok _ (.inr ⟨days, rfl, rfl⟩))).bind fun n w' _ _ => ?_
    split
    · exact .pure trivial
    · exact hmerge w'

/-- No event of the distinct ids is in the files of a partition. -/
def World.Erased (w : World ν U) (projectId : String) (day : NaiveDate) (distinctIds : List String) : Prop :=
  ∀ file ∈ w.snapshot.files projectId day, ∀ e ∈ w.content file, e.distinctId ∉ distinctIds

/-- A partition was rewritten without the distinct ids, and no other one. -/
def World.Rewritten (w w' : World ν U) (projectId : String) (day : NaiveDate) (distinctIds : List String) : Prop :=
  w'.Erased projectId day distinctIds ∧ ∀ p d, (p, d) ≠ (projectId, day) → w'.snapshot.files p d = w.snapshot.files p d

theorem erasePartition_runs {distinctIds : List String} {now : Int} {partition : Partition}
    (hok : ok (.erased partition.projectId distinctIds))
    (hfiles : partition.files = w.snapshot.files partition.projectId partition.day) :
    Runs K duck ok (erasePartition m duck distinctIds now partition) w fun _ w' =>
      w.Rewritten w' partition.projectId partition.day distinctIds := by
  intro hw
  set path := filePath partition.projectId partition.day (.erased (w.snapshot.generation + 1)) with hpath
  have hlive : ∀ file ∈ w.db.liveFiles, ¬ (file.path.temporary ∨ file.path = path) := fun file hf =>
    not_live hw.toSound (congrArg (· + 1) hw.generation) hf
  have hinputs : ∀ file ∈ partition.files, file ∈ w.db.liveFiles := fun file hf => (hw.mem_files.mp (hfiles ▸ hf)).1
  have hread : Runs K duck ok (readParquet m partition.files) w fun rows w' =>
      Touches (fun p => p.temporary ∨ p = path) w w' ∧ rows = partition.files.flatMap w.content :=
    Works.runs ((readParquet_works partition.files).widen fun _ => Idled.touches _) hlive
  refine (hread.bind fun rows w₁ hr hw₁ => ?_) hw
  obtain ⟨ht₁, hrows⟩ := hr
  have hfiles₁ : partition.files = w₁.snapshot.files partition.projectId partition.day := by rw [ht₁.snapshot, hfiles]
  have hcontent₁ : ∀ file ∈ partition.files, w₁.content file = w.content file := fun file hf => by
    rw [World.content, World.content, ht₁.disk _ (hlive file (hinputs file hf))]
  simp only
  split
  · rename_i hnone
    refine .pure ⟨fun file hf e he hid => ?_, fun p d _ => by rw [ht₁.snapshot]⟩
    rw [← hfiles₁] at hf
    rw [hcontent₁ file hf] at he
    refine absurd (List.length_eq_zero_iff.mp hnone) (List.ne_nil_of_mem (List.mem_filter.mpr ⟨?_, decide_eq_true hid⟩))
    rw [hrows]
    exact List.mem_flatMap.mpr ⟨file, hf, he⟩
  refine .get ?_
  have hpath₁ : path = filePath partition.projectId partition.day (.erased (w₁.snapshot.generation + 1)) := by
    rw [ht₁.snapshot]
  rw [← hpath₁]
  have hlive₁ : ∀ file ∈ w₁.db.liveFiles, ¬ (file.path.temporary ∨ file.path = path) := ht₁.db ▸ hlive
  refine (Works.runs (writeFile_works _ rfl _) hlive₁).bind fun bytes w₂ hwritten _ hw₂ => ?_
  obtain ⟨ht₂, hholds⟩ := hwritten
  set rest := rows.filter (·.distinctId ∉ distinctIds) with hrest
  set file : NewFile := ⟨partition.projectId, partition.day, path, (duck.distinct rest).length, bytes, 1⟩ with hfile
  have ht : Touches (fun p => p.temporary ∨ p = path) w w₂ := ht₁.trans ht₂
  have hfiles₂ : partition.files = w₂.snapshot.files partition.projectId partition.day := by rw [ht.snapshot, hfiles]
  have hrows₂ : rows = (w₂.snapshot.files partition.projectId partition.day).flatMap w₂.content := by
    rw [hrows, ← hfiles₂]
    exact (content_eq ht fun file hf => hlive file (hinputs file hf)).symm
  have hlive₂ : ∀ file ∈ w₂.db.liveFiles, ¬ file.path = path := fun file hf h => hlive file (ht.db ▸ hf) (.inr h)
  have hwrites : ∀ (added : Option LakeFile) (tx : Database),
      added.map (fun f => (f.projectId, f.day, f.path)) =
        (if 0 < (duck.distinct rest).length then some file else none).map (fun f => (f.projectId, f.day, f.path)) →
      tx.tables = w₂.db.tables → tx.state.checkpoint = w₂.db.state.checkpoint →
      (Commit.erased partition.projectId distinctIds).Writes K duck w₂ tx added.toList (partition.files.map LakeFile.id) := by
    intro added tx hadded htables hcheckpoint
    rw [hfiles₂]
    refine .erased (fun rows' heq => ?_) htables hcheckpoint
    obtain rfl : rows' = rest := by rw [heq, ← hrows₂]
    split at hadded
    · obtain ⟨f, rfl, heq⟩ := Option.map_eq_some_iff.mp hadded
      simp only [Prod.mk.injEq] at heq
      exact ⟨heq.1, heq.2.1, by rw [heq.2.2]; exact hholds.1⟩
    · rename_i hempty
      obtain rfl : added = none := by simpa using hadded
      rw [Nat.not_lt, Nat.le_zero, List.length_eq_zero_iff] at hempty
      refine List.eq_nil_iff_forall_not_mem.mpr fun e he => ?_
      obtain ⟨e', he', -⟩ := duck.covers rest e he
      rw [hempty] at he'
      cases he'
  have hleft : ∀ e w', Idled w₂ w' → Left K duck ok w₂ e w' := fun e _ h => .changes h.changes e
  refine Ends.bind ((replaceFiles_ends hw₂ (by rw [ht₂.snapshot]) ?_ ?_ hwrites).mono ?_ hleft)
  · intro f hf
    split at hf <;> cases hf
    exact ⟨rfl, by rw [hfile, hpath₁]; rfl, _, hholds⟩
  · intro id hid
    obtain ⟨file, hf, rfl⟩ := List.mem_map.mp hid
    obtain ⟨row, hrow, -⟩ := hw.db.mem_liveFiles.mp (hinputs file hf)
    exact ⟨row, ht.db ▸ hrow⟩
  rintro added _ ⟨tx, n, rfl, hc, hadded⟩
  have hnew : ∀ f, added = some f → f.projectId = partition.projectId ∧ f.day = partition.day ∧ f.path = path := by
    rintro f rfl
    split at hadded
    · simpa [hfile] using hadded
    · cases hadded
  have hgen : w₁.snapshot.generation + 1 = w₂.db.state.generation + 1 := by rw [← hw₂.generation, ht₂.snapshot]
  have hpost : ∀ v, Touches (· = path) w₂ v → (∀ f, added = some f → v.disk.get path = some (duck.distinct rest)) →
      w.Rewritten (v.install tx added.toList (partition.files.map LakeFile.id)) partition.projectId partition.day
        distinctIds := by
    intro v hv hd
    have hinstalled : ∀ p d, (v.install tx added.toList (partition.files.map LakeFile.id)).snapshot.files p d =
        (w₂.snapshot.files p d).filter (·.id ∉ partition.files.map LakeFile.id) ++
          added.toList.filter fun file => file.projectId = p ∧ file.day = d := fun p d => by
      rw [← hv.snapshot]
      exact Snapshot.activate_files _ _ _ _ p d
    refine ⟨fun f hf e he => ?_, fun p d hne => ?_⟩
    · rw [hinstalled, ← hfiles₂, List.mem_append, List.mem_filter, List.mem_filter] at hf
      rcases hf with ⟨hf, hnot⟩ | ⟨hf, -⟩
      · exact absurd (List.mem_map_of_mem hf) (of_decide_eq_true hnot)
      · obtain rfl : added = some f := Option.mem_toList.mp hf
        have hcontent : (v.disk.get f.path).getD [] = duck.distinct rest := by
          rw [(hnew f rfl).2.2, hd f rfl, Option.getD_some]
        have he' : e ∈ duck.distinct rest := hcontent ▸ he
        exact of_decide_eq_true (List.mem_filter.mp (duck.mem rest e he')).2
    · rw [hinstalled, ← ht.snapshot]
      have hkept : (w₂.snapshot.files p d).filter (·.id ∉ partition.files.map LakeFile.id) = w₂.snapshot.files p d := by
        refine List.filter_eq_self.mpr fun f hf => decide_eq_true fun hid => hne ?_
        obtain ⟨f', hf', hid⟩ := List.mem_map.mp hid
        rw [hfiles₂, hw₂.mem_files] at hf'
        rw [hw₂.mem_files] at hf
        obtain rfl := World.Running.eq_of_id hw₂.db hf'.1 hf.1 hid
        rw [← hf.2.1, ← hf.2.2, hf'.2.1, hf'.2.2]
      have hothers : added.toList.filter (fun file => file.projectId = p ∧ file.day = d) = [] := by
        refine List.filter_eq_nil_iff.mpr fun f hf => ?_
        obtain ⟨hp, hd, -⟩ := hnew f (Option.mem_toList.mp hf)
        simpa using fun h h' => hne (by rw [← h, ← h', hp, hd])
      rw [hkept, hothers, List.append_nil]
  cases added with
  | some f =>
    exact activate_runs hw₂ hok hc hgen (.pure (hpost _ (.tick w₂ n) fun _ _ => hholds.1))
  | none =>
    have hdone : ∀ v, Touches (· = path) (w₂.committing tx n) v → ∃ v' : World ν U, v = v'.committing tx v.ops ∧
        Touches (· = path) w₂ v' ∧ v'.Running ∧ Changes K duck ok w₂ v' ∧ v'.Commits K duck
          (.erased partition.projectId distinctIds) tx [] (partition.files.map LakeFile.id) := by
      intro v hv
      obtain ⟨v', hv', heq⟩ := hv.committing
      have hc' : Changes K duck ok w₂ v' := hv'.changes hw₂.toSound hlive₂
      exact ⟨v', heq, hv', hc'.running hw₂, hc', hc.touched hw₂ hv' hlive₂ (by simp)⟩
    refine Ends.bind ((ignoringErrors_ends (removeFile_works path)).mono (fun _ v hv => ?_) fun e v hv => ?_)
    · obtain ⟨v', heq, hv', hrun, hchanges, hc'⟩ := hdone v hv
      have hpure : Runs K duck ok (pure (rows.filter (·.distinctId ∈ distinctIds)).length)
          (({ v' with ops := v.ops } : World ν U).install tx [] (partition.files.map LakeFile.id))
          fun _ w' => w.Rewritten w' partition.projectId partition.day distinctIds :=
        .pure (hpost _ (hv'.trans (.tick v' v.ops)) (by simp))
      rw [heq]
      exact (activate_runs hrun hok hc' (by rw [hgen, hv'.db]) hpure).mono
        (fun _ _ h => ⟨hchanges.trans h.1, h.2⟩) fun _ _ hl => hl.prepend hchanges
    · obtain ⟨he, hv⟩ := hv
      obtain ⟨v', heq, hv', hrun, hchanges, hc'⟩ := hdone v hv
      refine ⟨_, hchanges.trans (hc'.changes v.ops hrun hok), ?_, fun hne => absurd he hne⟩
      rw [heq]
      exact ⟨rfl, rfl, rfl, rfl⟩

theorem erasePartitions_runs {distinctIds : List String} {now : Int} {projectId : String} {partitions : List Partition}
    (hok : ok (.erased projectId distinctIds)) (hproject : ∀ partition ∈ partitions, partition.projectId = projectId)
    (hnodup : (partitions.map Partition.day).Nodup)
    (hfiles : ∀ partition ∈ partitions, partition.files = w.snapshot.files projectId partition.day) :
    Runs K duck ok (erasePartitions m duck distinctIds now partitions) w fun _ w' =>
      (∀ partition ∈ partitions, w'.Erased projectId partition.day distinctIds) ∧
      ∀ p d, (p ≠ projectId ∨ d ∉ partitions.map Partition.day) → w'.snapshot.files p d = w.snapshot.files p d := by
  induction partitions generalizing w with
  | nil => exact .pure ⟨by simp, fun _ _ _ => rfl⟩
  | cons partition partitions ih =>
    obtain rfl := hproject partition List.mem_cons_self
    rw [List.map_cons, List.nodup_cons] at hnodup
    refine (erasePartition_runs hok (hfiles partition List.mem_cons_self)).bind fun n w₁ ⟨herased, hothers⟩ hw₁ => ?_
    have hne : ∀ p d, (p ≠ partition.projectId ∨ d ∉ (partition :: partitions).map Partition.day) →
        (p, d) ≠ (partition.projectId, partition.day) := by
      rintro p d h heq
      obtain ⟨rfl, rfl⟩ := Prod.mk.inj heq
      exact h.elim (fun h => h rfl) fun h => h List.mem_cons_self
    have hrest := ih (w := w₁) (fun partition' hp => hproject partition' (List.mem_cons_of_mem _ hp)) hnodup.2 fun partition' hp => by
      rw [hothers, hfiles partition' (List.mem_cons_of_mem _ hp)]
      intro heq
      exact hnodup.1 ((Prod.mk.inj heq).2 ▸ List.mem_map_of_mem hp)
    refine hrest.changes.bind fun n' w₂ ⟨hc, hall, hothers'⟩ hw₂ => .pure ⟨fun partition' hp => ?_, fun p d h => ?_⟩
    · rcases List.mem_cons.mp hp with rfl | hp
      · intro file hf e he
        have hf₁ : file ∈ w₁.snapshot.files partition'.projectId partition'.day := by
          rwa [hothers' _ _ (.inr hnodup.1)] at hf
        have hlive := (hw₁.mem_files.mp hf₁).1
        have hkept := (hc.kept hw₁ (hw₂.mem_files.mp hf).1 (hw₁.toSound.live_path hlive).2).2
        exact herased file hf₁ e (hkept ▸ he)
      · exact hall partition' hp
    · rw [hothers' p d (h.imp_right fun hnot hmem => hnot (List.mem_cons_of_mem _ hmem)), hothers p d (hne p d h)]

theorem erase_runs {projectId : String} {distinctIds : List String} {now : Int} (hok : ok (.erased projectId distinctIds)) :
    Runs K duck ok (erase m duck projectId distinctIds now) w fun _ w' => ∀ day, w'.Erased projectId day distinctIds := by
  unfold erase
  split
  · rename_i hempty
    rw [List.isEmpty_iff] at hempty
    exact .pure fun _ _ _ _ _ => by simp [hempty]
  refine .get ?_
  refine (erasePartitions_runs hok (fun partition hp => of_decide_eq_true (List.mem_filter.mp hp).2)
    (w.snapshot.nodup_partitions projectId) fun partition hp => ?_).mono fun n w' ⟨hall, hothers⟩ day => ?_
  · obtain ⟨hp, heq⟩ := List.mem_filter.mp hp
    rw [Snapshot.mem_partitions hp, of_decide_eq_true heq]
  · by_cases hd : day ∈ (w.snapshot.partitions.filter (·.projectId = projectId)).map Partition.day
    · obtain ⟨partition, hp, rfl⟩ := List.mem_map.mp hd
      exact hall partition hp
    · intro file hf
      rw [hothers projectId day (.inr hd)] at hf
      obtain ⟨partition, hp, hproject, hday, -⟩ := Snapshot.exists_partition hf
      exact absurd (hday ▸ List.mem_map_of_mem (List.mem_filter.mpr ⟨hp, decide_eq_true hproject⟩)) hd

end compactor
end Hoglet.Lake
