import Hoglet.Lake.Runs

/-! Publication as a run of changes. -/
namespace Hoglet.Lake
open Capture Projections

section publisher
variable {ν U : Type} [DecidableEq U] {m : Machine} {K : Crates ν U} {duck : Duck ν U} {ok : Commit ν U → Prop}
  {w w' : World ν U}

/-- The paths that the files of a window from some index on may touch. -/
def windowPaths (generation index : Nat) (p : Path) : Prop :=
  p.temporary ∨ ∃ j, index ≤ j ∧ p.name = .published generation j

/-- The file of a partition, with the rows it should have. -/
def FileOf (w : World ν U) (generation index : Nat) (file : LakeFile) (part : (String × NaiveDate) × Content ν U) : Prop :=
  (file.projectId, file.day) = part.1 ∧ w.Holds file.path part.2 ∧ file.path.temporary = false ∧
    ∃ j, index ≤ j ∧ file.path.name = .published generation j

omit [DecidableEq U] in
theorem windowPaths.mono {generation index : Nat} {p : Path} (h : windowPaths generation (index + 1) p) :
    windowPaths generation index p := h.imp_right fun ⟨j, hj, hn⟩ => ⟨j, (Nat.le_succ _).trans hj, hn⟩

omit [DecidableEq U] in
theorem publishFiles_works {db tx : Database} {generation index : Nat} {now : Int} {done : List LakeFile}
    {parts : List ((String × NaiveDate) × Content ν U)} (hins : db.Inserted generation tx done) :
    Works (windowPaths generation index) (publishFiles m generation now index parts tx) w fun r w' =>
      (∀ path ∈ r.2, windowPaths generation index path) ∧
      ∀ tx' added, r.1 = .ok (tx', added) → db.Inserted generation tx' (done ++ added) ∧ tx'.tables = tx.tables ∧
        List.Forall₂ (FileOf w' generation index) added parts := by
  induction parts generalizing index tx done w with
  | nil =>
    refine .pure ⟨by simp, ?_⟩
    rintro _ _ ⟨⟩
    exact ⟨by rwa [List.append_nil], rfl, .nil⟩
  | cons part parts ih =>
    obtain ⟨⟨projectId, day⟩, content⟩ := part
    set path := filePath projectId day (.published generation index) with hpath
    have hown : ∀ p, p.temporary ∨ p = path → windowPaths generation index p := by
      rintro p (h | rfl)
      · exact .inl h
      · exact .inr ⟨index, le_refl _, rfl⟩
    refine (attempt_along ((writeFile_works .io (show path.temporary = false from rfl) content).widen fun _ h => h.mono hown)).bind fun r w₁ _ hr => ?_
    cases r with
    | error e => exact .pure ⟨by simp, by simp⟩
    | ok bytes =>
      have hholds := hr bytes rfl
      refine ((attempt_along (statement_works _)).keep.widen fun _ => Idled.touches _).bind fun r w₂ _ ⟨ht₂, hr⟩ => ?_
      cases r with
      | error e => exact .pure ⟨by simpa using hown path (.inr rfl), by simp⟩
      | ok r =>
        obtain ⟨tx', file⟩ := r
        obtain ⟨hins', hp, hproject, hday, htables, -⟩ := hins.insertFile (hr _ rfl)
        refine Ends.bind (Ends.mono (ih hins') (fun r w₃ ⟨ht₃, hwritten, hr⟩ => Ends.pure ⟨ht₃.mono fun _ => windowPaths.mono,
          fun p hp => ?_, fun tx'' added heq => ?_⟩) fun _ _ ht => ht.mono fun _ => windowPaths.mono)
        · rcases List.mem_cons.mp hp with rfl | hp
          · exact hown path (.inr rfl)
          · exact (hwritten p hp).mono
        · obtain ⟨result, written⟩ := r
          cases result with
          | error e => cases heq
          | ok result =>
            cases heq
            obtain ⟨hins'', htables', hfiles⟩ := hr _ _ rfl
            have hnew : ¬ windowPaths generation (index + 1) path := by
              rintro (h | ⟨j, hj, hn⟩)
              · cases h
              · cases hn
                omega
            refine ⟨by simpa using hins'', htables'.trans htables, .cons ⟨by rw [hproject, hday], ?_⟩ ?_⟩
            · rw [hp]
              exact ⟨ht₃.holds hnew ((ht₂.touches fun _ => False).holds id hholds), rfl, index, le_refl _, rfl⟩
            · exact hfiles.imp fun _ _ ⟨h, h', h'', j, hj, hn⟩ => ⟨h, h', h'', j, (Nat.le_succ _).trans hj, hn⟩

omit [DecidableEq U] in
theorem removeFiles_works {S : Path → Prop} {paths : List Path} (h : ∀ path ∈ paths, S path) :
    Works S (removeFiles m paths) w fun _ _ => True := by
  induction paths generalizing w with
  | nil => exact .pure trivial
  | cons path paths ih =>
    refine (ignoringErrors_works ((removeFile_works path).widen fun _ ht => ht.mono ?_)).bind fun _ _ _ _ =>
      ih fun p hp => h p (List.mem_cons_of_mem _ hp)
    rintro _ rfl
    exact h _ List.mem_cons_self

omit [DecidableEq U] in
theorem reclaimThrough_along {reclaim : Wal.WalCursor → Except Wal.WalError Unit} {c : Wal.WalCursor} :
    Along Idled (reclaimThrough reclaim c) w fun _ w' => w' = w := by
  unfold reclaimThrough
  cases reclaim c with
  | ok _ => exact .pure rfl
  | error e => exact .throw

theorem publishRead_runs {reclaim : Wal.WalCursor → Except Wal.WalError Unit} {now : Int} {db : Database}
    {records : List (CapturedBatch ν U)} {next : Wal.WalCursor} (hdb : db = w.db) (hok : ok (.published records next)) :
    Runs K duck ok (publishRead m K reclaim now db records next) w fun published w' =>
      published.checkpoint = next ∧ w'.db.state.checkpoint = next := by
  intro hw
  subst hdb
  have hleft : ∀ e w', Idled w w' → Left K duck ok w e w' := fun e _ ht => .changes ht.changes e
  refine (statement_works (.ok ())).ends (fun _ w₁ ht₁ _ => ?_) hleft
  refine (statement_works _).ends (fun r w₂ ht₂ happlied => ?_) fun e _ ht => hleft e _ (trans_of Idled ht₁ ht)
  obtain ⟨kept, tables⟩ := r
  refine (statement_works _).ends (fun catalog w₃ ht₃ hflushed => ?_) fun e _ ht =>
    hleft e _ (trans_of Idled (trans_of Idled ht₁ ht₂) ht)
  obtain ⟨n, rfl⟩ : Idled w w₃ := trans_of Idled (trans_of Idled ht₁ ht₂) ht₃
  simp only
  have hlive : ∀ file ∈ w.db.liveFiles, ¬ windowPaths (w.db.state.generation + 1) 0 file.path := by
    intro file hf
    obtain ⟨ht, hle⟩ := hw.toSound.live_path hf
    rintro (h | ⟨j, -, h⟩)
    · rw [ht] at h
      cases h
    · rw [h] at hle
      exact Nat.not_succ_le_self _ hle
  have hinserted : w.db.Inserted (w.db.state.generation + 1) { w.db with tables, catalog } [] := hw.db.inserted _ rfl rfl
  refine (publishFiles_works hinserted).ends (fun r w₄ ht₄ hpublished => ?_) fun e w' ht =>
    .changes (((Touches.tick w n).trans ht).changes hw.toSound hlive) e
  obtain ⟨hwritten, hr⟩ := hpublished
  have ht : Touches (windowPaths (w.db.state.generation + 1) 0) w w₄ := (Touches.tick w n).trans ht₄
  have hc₄ : Changes K duck ok w w₄ := ht.changes hw.toSound hlive
  have hw₄ : w₄.Running := hc₄.running hw
  obtain ⟨result, written⟩ := r
  cases result with
  | error e =>
    refine Ends.bind (Ends.mono (removeFiles_works hwritten) (fun _ w' ht' => Ends.throw ?_) fun e w' ht' => ?_)
    · exact .changes ((ht.trans ht'.1).changes hw.toSound hlive) e
    · exact .changes ((ht.trans ht').changes hw.toSound hlive) e
  | ok result =>
    obtain ⟨tx, added⟩ := result
    obtain ⟨hins, htables, hfiles⟩ := hr tx added rfl
    simp only
    rw [List.nil_append] at hins
    have hleft₄ : ∀ e w', Idled w₄ w' → Left K duck ok w e w' := fun e _ h => .changes (hc₄.trans h.changes) e
    refine (statement_works _).ends (fun tx' w₅ ht₅ hadvance => ?_) hleft₄
    obtain ⟨n', rfl⟩ := ht₅
    refine Ends.bind ((commit_ends tx').mono (fun _ w₆ hw₆ => ?_) fun e _ h => hleft₄ e _ (trans_of Idled ⟨n', rfl⟩ h))
    have hgen : w.db.state.generation + 1 = w₄.db.state.generation + 1 := by rw [ht.db]
    have hcheckpoint : tx'.state.checkpoint = next := by rw [(Database.advanceState_ok hadvance).2, Option.getD_some]
    have hc : w₄.Commits K duck (.published records next) tx' added [] := by
      have hretire : Database.retire (w₄.db.state.generation + 1) [] tx = .ok tx := rfl
      refine hw₄.commits ?_ (by simp) hretire (ht.db ▸ hadvance) ?_ fun htx _ => ?_
      · rw [ht.db]
        exact hins
      · refine ((List.forall₂_and_left added _).mp (hfiles.imp fun file part h => ⟨?_, h⟩)).1
        obtain ⟨-, hholds, htemporary, j, -, hname⟩ := h
        exact ⟨htemporary, by rw [hname, ← hgen]; rfl, part.2, hholds⟩
      · rw [← hcheckpoint]
        have hrecords : publishRecords K records [] w₄.db.tables = .ok kept tx'.tables := by
          rw [ht.db, htx, htables]
          unfold recordsApplied at happlied
          split at happlied <;> cases happlied
          assumption
        exact .published hrecords (hfiles.imp fun _ _ h => ⟨h.1, h.2.1.1⟩)
    rw [hw₆]
    refine (activate_runs (n := n' + 1) hw₄ hok hc hgen ?_).mono (fun _ _ h => ⟨hc₄.trans h.1, h.2⟩) fun _ _ hl => hl.prepend hc₄
    refine (Works.runs (S := fun _ => False) (reclaimThrough_along.widen fun _ h => h.touches _) fun _ _ => id).bind
      fun _ w₇ hw₇ _ => .pure ⟨rfl, ?_⟩
    rw [hw₇.2]
    exact hcheckpoint

theorem publishWindow_runs {read : Wal.WalCursor → Except Wal.WalError (List (CapturedBatch ν U) × Wal.WalCursor)}
    {reclaim : Wal.WalCursor → Except Wal.WalError Unit} {now : Int}
    (hok : ∀ records next, read w.db.state.checkpoint = .ok (records, next) → records ≠ [] → ok (.published records next)) :
    Runs K duck ok (publishWindow m K read reclaim now) w fun r w' =>
      match r with
      | none => ∃ next, read w.db.state.checkpoint = .ok ([], next) ∧ Idled w w'
      | some published => ∃ records, read w.db.state.checkpoint = .ok (records, published.checkpoint) ∧ records ≠ [] ∧
        w'.db.state.checkpoint = published.checkpoint := by
  intro hw
  have hleft : ∀ e w', Idled w w' → Left K duck ok w e w' := fun e _ ht => .changes ht.changes e
  refine (statement_works (.ok ())).ends (fun _ w₁ ht₁ _ => ?_) hleft
  refine Ends.bind (Ends.get ?_)
  obtain ⟨n, rfl⟩ := ht₁
  simp only
  cases hread : read w.db.state.checkpoint with
  | error e => exact Ends.throw (hleft _ _ ⟨n, rfl⟩)
  | ok window =>
    obtain ⟨records, next⟩ := window
    simp only
    split
    · rename_i hempty
      obtain rfl := List.isEmpty_iff.mp hempty
      split
      · exact Ends.pure ⟨.quiet fun _ _ => ⟨rfl, rfl⟩, next, rfl, n, rfl⟩
      · refine reclaimThrough_along.ends (fun _ w₂ _ hw₂ => Ends.pure ?_) fun e _ ht => hleft e _ (trans_of Idled ⟨n, rfl⟩ ht)
        rw [hw₂]
        exact ⟨.quiet fun _ _ => ⟨rfl, rfl⟩, next, rfl, n, rfl⟩
    · rename_i hempty
      have hne : records ≠ [] := fun h => hempty (List.isEmpty_iff.mpr h)
      have hidle : Changes K duck ok w { w with ops := n } := .quiet fun _ _ => ⟨rfl, rfl⟩
      refine Ends.bind ((publishRead_runs (w := { w with ops := n }) rfl (hok records next hread hne) (hidle.running hw)).mono
        (fun published w' ⟨hc, hp, hcheckpoint⟩ => Ends.pure ⟨hidle.trans hc, records, ?_, hne, ?_⟩) fun e _ hl => hl.prepend hidle)
      · rw [hp]
      · rw [hp, hcheckpoint]

end publisher
end Hoglet.Lake
