import Hoglet.Lake.Changes
import Hoglet.Lake.Files
import Hoglet.Lake.Open

/-! Every call of the publisher, the compactor and the sweep is a run of changes, whatever operation of it
fails and wherever the process ends. -/
namespace Hoglet.Lake
open Capture Projections

/-- The two worlds have the same database and disk. -/
structure World.Remains {ν U : Type} (w w' : World ν U) : Prop where
  db : w.db = w'.db
  commits : w.commits = w'.commits
  disk : w.disk = w'.disk
  stored : w.stored = w'.stored

theorem World.Remains.refl {ν U : Type} (w : World ν U) : w.Remains w := ⟨rfl, rfl, rfl, rfl⟩

/-- A live file's path is not temporary and names a generation that has been reached. -/
theorem World.Sound.live_path {ν U : Type} {w : World ν U} (hw : w.Sound) {file : LakeFile} (hf : file ∈ w.db.liveFiles) :
    file.path.temporary = false ∧ file.path.name.generation ≤ w.db.state.generation := by
  obtain ⟨row, hrow, -, heq⟩ := hw.db.mem_liveFiles.mp hf
  obtain ⟨ht, hn, hle, -⟩ := hw.db.named _ _ hrow
  rw [← heq]
  exact ⟨ht, hn ▸ hle⟩

section rules
variable {ν U α γ : Type} [DecidableEq U] {K : Crates ν U} {duck : Duck ν U} {ok : Commit ν U → Prop}
  {S : Path → Prop} {w w' : World ν U}

/-- What an error leaves: a run of changes, of which only the database and the disk are left when the
process has ended. -/
def Left (K : Crates ν U) (duck : Duck ν U) (ok : Commit ν U → Prop) (w : World ν U) (e : PipelineError)
    (w' : World ν U) : Prop :=
  ∃ w'', Changes K duck ok w w'' ∧ w'.Remains w'' ∧ (e ≠ .crashed → w' = w'')

/-- From a running lake the call only makes changes with allowed commits, however it ends. -/
def Runs (K : Crates ν U) (duck : Duck ν U) (ok : Commit ν U → Prop) (x : Steps ν U α) (w : World ν U)
    (Q : α → World ν U → Prop) : Prop :=
  w.Running → Ends x w (fun a w' => Changes K duck ok w w' ∧ Q a w') (Left K duck ok w)

theorem Left.changes (h : Changes K duck ok w w') (e : PipelineError) : Left K duck ok w e w' :=
  ⟨w', h, .refl w', fun _ => rfl⟩

theorem Left.prepend {w'' : World ν U} {e : PipelineError} (h : Changes K duck ok w w') (hl : Left K duck ok w' e w'') :
    Left K duck ok w e w'' := by
  obtain ⟨v, hv, hr, he⟩ := hl
  exact ⟨v, h.trans hv, hr, he⟩

namespace Runs
variable {P : α → World ν U → Prop} {Q : γ → World ν U → Prop}

theorem bind {x : Steps ν U α} {f : α → Steps ν U γ} (h : Runs K duck ok x w P)
    (hf : ∀ a w', P a w' → w'.Running → Runs K duck ok (f a) w' Q) : Runs K duck ok (x >>= f) w Q := fun hw =>
  Ends.bind <| (h hw).mono
    (fun a w' ⟨hc, hp⟩ => (hf a w' hp (hc.running hw) (hc.running hw)).mono (fun _ _ ⟨hc', hq⟩ => ⟨hc.trans hc', hq⟩)
      fun _ _ hl => hl.prepend hc)
    fun _ _ hl => hl

theorem pure {a : α} (h : P a w) : Runs K duck ok (Pure.pure a) w P := fun _ => Ends.pure ⟨.refl, h⟩

theorem throw {e : PipelineError} : Runs K duck ok (MonadExcept.throw e) w P := fun _ => Ends.throw (.changes .refl e)

theorem get {f : World ν U → Steps ν U γ} (h : Runs K duck ok (f w) w Q) : Runs K duck ok (MonadState.get >>= f) w Q :=
  fun hw => Ends.bind (Ends.get (h hw))

theorem mono {x : Steps ν U α} {P' : α → World ν U → Prop} (h : Runs K duck ok x w P) (hp : ∀ a w', P a w' → P' a w') :
    Runs K duck ok x w P' := fun hw => (h hw).mono (fun a w' ⟨hc, hpa⟩ => ⟨hc, hp a w' hpa⟩) fun _ _ hl => hl

theorem changes {x : Steps ν U α} (h : Runs K duck ok x w P) : Runs K duck ok x w fun a w' => Changes K duck ok w w' ∧ P a w' :=
  fun hw => (h hw).mono (fun _ _ ⟨hc, hpa⟩ => ⟨hc, hc, hpa⟩) fun _ _ hl => hl

end Runs

/-- Work on files that no live row names. -/
theorem Touches.changes (h : Touches S w w') (hw : w.Sound) (hs : ∀ file ∈ w.db.liveFiles, ¬ S file.path) :
    Changes K duck ok w w' := by
  rw [h.same]
  refine .quiet fun file hf => ⟨h.disk _ (hs file hf), ?_⟩
  obtain ⟨content, hd, hst⟩ := hw.there file hf
  rcases h.stored _ (hs file hf) with he | he
  · exact he
  · rw [he, hd, hst]

theorem Works.runs {x : Steps ν U α} {P : α → World ν U → Prop} (h : Works S x w P)
    (hs : ∀ file ∈ w.db.liveFiles, ¬ S file.path) : Runs K duck ok x w fun a w' => Touches S w w' ∧ P a w' := fun hw =>
  Ends.mono h (fun _ _ ⟨ht, hp⟩ => ⟨ht.changes hw.toSound hs, ht, hp⟩) fun e _ ht => .changes (ht.changes hw.toSound hs) e

theorem Idled.changes (h : Idled w w') : Changes K duck ok w w' := by
  obtain ⟨n, rfl⟩ := h
  exact .quiet fun _ _ => ⟨rfl, rfl⟩

end rules

section commits
variable {ν U : Type} [DecidableEq U] {m : Machine} {K : Crates ν U} {duck : Duck ν U} {ok : Commit ν U → Prop}
  {w w' : World ν U}

/-- The lake after a commit, before its activation. -/
def World.committing (w : World ν U) (tx : Database) (ops : Nat) : World ν U :=
  { w with db := tx, commits := w.commits + 1, ops }

omit [DecidableEq U] in
/-- Work on files after a commit could have been done before it. -/
theorem Touches.committing {S : Path → Prop} {tx : Database} {n : Nat} (h : Touches S (w.committing tx n) w') :
    ∃ v : World ν U, Touches S w v ∧ w' = v.committing tx w'.ops :=
  ⟨{ w with disk := w'.disk, stored := w'.stored }, ⟨rfl, h.disk, h.stored⟩, h.same⟩

omit [DecidableEq U] in
theorem commit_ends (tx : Database) : Ends (commit m tx) w (fun _ w' => w' = w.committing tx (w.ops + 1))
    fun _ w' => Idled w w' :=
  (operation_ends _ _ _).mono (fun _ _ hw' => hw') fun _ _ hw' => ⟨_, hw'.elim id id⟩

/-- What makes a transaction ready does not depend on files that no row of it names. -/
theorem World.Commits.touched {c : Commit ν U} {tx : Database} {added : List LakeFile} {retired : List Nat} {S : Path → Prop}
    (hw : w.Running) (h : w.Commits K duck c tx added retired) (ht : Touches S w w')
    (hs : ∀ file ∈ w.db.liveFiles, ¬ S file.path) (ha : ∀ file ∈ added, ¬ S file.path) :
    w'.Commits K duck c tx added retired := by
  have hcontent : ∀ files : List LakeFile, (∀ file ∈ files, file ∈ w.db.liveFiles) →
      files.flatMap w'.content = files.flatMap w.content := by
    refine fun files hf => List.flatMap_congr fun file hfile => ?_
    rw [World.content, World.content, ht.disk _ (hs file (hf file hfile))]
  have hfiles : ∀ p d, ∀ file ∈ w.snapshot.files p d, file ∈ w.db.liveFiles := fun p d file hf => (hw.mem_files.mp hf).1
  refine ⟨ht.db ▸ h.generation, h.sound, ht.db ▸ h.live, ht.db ▸ h.rows, fun file hf => ?_, h.named, ?_⟩
  · obtain ⟨content, hd, hst⟩ := h.there file hf
    exact ⟨content, ht.holds (ha file hf) ⟨hd, hst⟩⟩
  · cases h.writes with
    | published hrun hparts =>
      refine .published (ht.db ▸ hrun) ?_
      refine ((List.forall₂_and_left _ _).mpr ⟨ha, hparts⟩).imp ?_
      rintro _ _ ⟨hn, hkey, hdisk⟩
      exact ⟨hkey, (ht.disk _ hn).trans hdisk⟩
    | merged hinputs hrows htables hcheckpoint =>
      refine .merged (ht.snapshot ▸ hinputs) ?_ (ht.db ▸ htables) (ht.db ▸ hcheckpoint)
      rw [ht.disk _ (ha _ List.mem_cons_self), hcontent _ fun file hf => hfiles _ _ file (hinputs hf)]
      exact hrows
    | expired hretired htables hcheckpoint =>
      exact .expired (ht.db ▸ hretired) (ht.db ▸ htables) (ht.db ▸ hcheckpoint)
    | @erased projectId day distinctIds added hrows htables hcheckpoint =>
      rw [← ht.snapshot]
      refine .erased (fun rows heq => ?_) (ht.db ▸ htables) (ht.db ▸ hcheckpoint)
      rw [ht.snapshot, hcontent _ (hfiles _ _)] at heq
      have hr := hrows rows heq
      cases added with
      | none => exact hr
      | some file => exact ⟨hr.1, hr.2.1, (ht.disk _ (ha file (by simp))).trans hr.2.2⟩

theorem World.Commits.changes {c : Commit ν U} {tx : Database} {added : List LakeFile} {retired : List Nat} (n : Nat)
    (hw : w.Running) (hok : ok c) (h : w.Commits K duck c tx added retired) :
    Changes K duck ok w (({ w with ops := n } : World ν U).install tx added retired) :=
  (Changes.quiet fun _ _ => ⟨rfl, rfl⟩).trans <| Changes.single (by rintro _ ⟨⟩; exact hok)
    (.committed (h.touched hw (.tick (S := fun _ => False) w n) (fun _ _ => id) fun _ _ => id))

/-- The activation that follows a commit, and the rest of the call. -/
theorem activate_runs {α : Type} {c : Commit ν U} {tx : Database} {added : List LakeFile} {retired : List Nat} {n : Nat}
    {x : Steps ν U α} {Q : α → World ν U → Prop} (hw : w.Running) (hok : ok c) (h : w.Commits K duck c tx added retired)
    {generation : Nat} (hg : generation = w.db.state.generation + 1)
    (hx : Runs K duck ok x (({ w with ops := n } : World ν U).install tx added retired) Q) :
    Ends (activate generation added retired >>= fun _ => x) (w.committing tx n)
      (fun a w' => Changes K duck ok w w' ∧ Q a w') (Left K duck ok w) := by
  have hc : Changes K duck ok w _ := h.changes n hw hok
  rw [hg, ← h.generation]
  refine Ends.bind (Ends.modify ?_)
  exact (hx (hc.running hw)).mono (fun _ _ ⟨hc', hq⟩ => ⟨hc.trans hc', hq⟩) fun _ _ hl => hl.prepend hc

omit [DecidableEq U] in
/-- A file that a transaction adds has an id that no row had. -/
theorem Database.Inserted.not_retired {db tx : Database} {generation : Nat} {added : List LakeFile} {retired : List Nat}
    (h : db.Inserted generation tx added) (hret : ∀ id ∈ retired, ∃ row, db.files.get id = some row) :
    ∀ id ∈ retired, id ∉ added.map LakeFile.id := by
  intro id hid hmem
  obtain ⟨row, hrow⟩ := hret id hid
  obtain ⟨file, hf, rfl⟩ := List.mem_map.mp hmem
  have hsorted := h.sorted
  rw [h.rows, List.map_append, List.pairwise_append] at hsorted
  refine lt_irrefl _ (hsorted.2.2 file.id (List.mem_map_of_mem (Table.get_eq_some.mp hrow)) file.id ?_)
  rw [List.map_map]
  exact List.mem_map_of_mem (f := Prod.fst ∘ fun file => (file.id, file.toRow generation)) hf

/-- A transaction that has added files, retired others and moved the generation is ready to commit. -/
theorem World.Running.commits {c : Commit ν U} {tx tx₁ tx₂ : Database} {added : List LakeFile} {retired : List Nat}
    {checkpoint : Option Wal.WalCursor} (hw : w.Running) (hins : w.db.Inserted (w.db.state.generation + 1) tx added)
    (hret : ∀ id ∈ retired, ∃ row, w.db.files.get id = some row)
    (hretire : Database.retire (w.db.state.generation + 1) retired tx = .ok tx₁)
    (hadvance : Database.advanceState w.db.state checkpoint tx₁ = .ok tx₂)
    (hadded : ∀ file ∈ added, file.path.temporary = false ∧ file.path.name.generation = w.db.state.generation + 1 ∧
      ∃ content, w.Holds file.path content)
    (hwrites : tx₂.tables = tx.tables → tx₂.state.checkpoint = checkpoint.getD w.db.state.checkpoint →
      c.Writes K duck w tx₂ added retired) : w.Commits K duck c tx₂ added retired := by
  obtain ⟨rfl, -, -⟩ := Database.retire_ok hretire
  obtain ⟨-, rfl⟩ := Database.advanceState_ok hadvance
  obtain ⟨hsound, hlive, hrows⟩ := hins.ready hw.db (fun file hf => ⟨(hadded file hf).1, (hadded file hf).2.1⟩)
    (hins.not_retired hret) (show ({ tx with
      files := tx.files.update fun i r => if i ∈ retired then r.retire (w.db.state.generation + 1) else r,
      state := ⟨w.db.state.generation + 1, checkpoint.getD w.db.state.checkpoint⟩ } : Database).files = _ from rfl) rfl
  exact ⟨rfl, hsound, hlive, hrows, fun file hf => (hadded file hf).2.2, fun file hf => (hadded file hf).2.1, hwrites rfl rfl⟩

theorem replaceFiles_ends {generation : Nat} {message : String} {file : Option NewFile} {retired : List Nat} {now : Int}
    {c : Commit ν U} (hw : w.Running) (hgen : generation = w.snapshot.generation + 1)
    (hfile : ∀ f, file = some f → f.path.temporary = false ∧ f.path.name.generation = generation ∧
      ∃ content, w.Holds f.path content)
    (hret : ∀ id ∈ retired, ∃ row, w.db.files.get id = some row)
    (hwrites : ∀ (added : Option LakeFile) (tx : Database),
      added.map (fun f => (f.projectId, f.day, f.path)) = file.map (fun f => (f.projectId, f.day, f.path)) →
      tx.tables = w.db.tables → tx.state.checkpoint = w.db.state.checkpoint → c.Writes K duck w tx added.toList retired) :
    Ends (replaceFiles m generation message file retired now) w
      (fun added w' => ∃ tx n, w' = w.committing tx n ∧ w.Commits K duck c tx added.toList retired ∧
        added.map (fun f => (f.projectId, f.day, f.path)) = file.map fun f => (f.projectId, f.day, f.path))
      fun _ w' => Idled w w' := by
  obtain rfl : generation = w.db.state.generation + 1 := by rw [hgen, hw.generation]
  unfold replaceFiles
  refine Ends.bind (Ends.get ?_)
  refine (statement_works (.ok ())).andThen fun _ w₁ ht₁ _ => ?_
  simp only
  rw [if_neg (not_not_intro rfl)]
  -- the insertion of the new file's row, if there is one
  have hinsert : Along Idled (insertAny m (w.db.state.generation + 1) now w.db file) w₁ fun r _ =>
      w.db.Inserted (w.db.state.generation + 1) r.1 r.2.toList ∧
        r.2.map (fun f => (f.projectId, f.day, f.path)) = file.map (fun f => (f.projectId, f.day, f.path)) ∧
        r.1.tables = w.db.tables := by
    cases file with
    | none => exact .pure ⟨hw.db.inserted _ rfl rfl, rfl, rfl⟩
    | some f =>
      refine (statement_works _).bind fun r _ _ hr => .pure ?_
      obtain ⟨hins, hpath, hp, hd, htables, -⟩ := (hw.db.inserted (w.db.state.generation + 1) rfl rfl).insertFile hr
      exact ⟨hins, by simp [hpath, hp, hd], htables⟩
  refine hinsert.andThen fun r w₂ ht₂ hr => ?_
  obtain ⟨tx₁, added⟩ := r
  obtain ⟨hins, hadded, htables⟩ := hr
  refine (statement_works _).andThen fun tx₂ w₃ ht₃ hretire => ?_
  refine (statement_works _).andThen fun tx₃ w₄ ht₄ hadvance => ?_
  obtain ⟨n, rfl⟩ : Idled w w₄ := trans_of Idled (trans_of Idled (trans_of Idled ht₁ ht₂) ht₃) ht₄
  refine Ends.bind ((commit_ends tx₃).mono (fun _ w' hw' => Ends.pure ⟨_, _, hw', ?_, hadded⟩) fun _ _ ht => ht)
  refine hw.commits hins hret hretire hadvance (fun f hf => ?_) fun h h' => hwrites added tx₃ hadded (h.trans htables) h'
  obtain rfl : added = some f := Option.mem_toList.mp hf
  cases file with
  | none => simp at hadded
  | some f' =>
    simp only [Option.map_some, Option.some.injEq, Prod.mk.injEq] at hadded
    rw [hadded.2.2]
    exact hfile f' rfl

theorem updateTables_runs {α : Type} {f : Tables → Except PipelineError (α × Tables)}
    (hok : ∀ a tables, f w.db.tables = .ok (a, tables) → ok (.recorded tables)) :
    Runs K duck ok (updateTables m f) w fun a w' => f w.db.tables = .ok (a, w'.db.tables) ∧
      ∃ n, w' = { w with db.tables := w'.db.tables, ops := n } := by
  intro _
  refine Ends.bind (Ends.get ?_)
  refine (statement_works _).ends (fun r w₁ ht₁ hr => ?_) fun e _ ht => .changes ht.changes e
  obtain ⟨n, rfl⟩ := ht₁
  refine Ends.bind ((operation_ends _ _ _).mono (fun _ w' hw' => Ends.pure ?_) fun e w' hw' => ?_)
  · refine ⟨(show Changes K duck ok w { w with ops := n + 1 } from Changes.quiet fun _ _ => ⟨rfl, rfl⟩).trans
      (Changes.single (c := some (.recorded r.2)) (by rintro _ ⟨⟩; exact hok _ _ hr) (hw' ▸ .recorded r.2)), ?_, n + 1, ?_⟩
    · rw [hw']
      exact hr
    · rw [hw']
  · exact .changes (Idled.changes (w := w) ⟨n + 1, hw'.elim id id⟩) e

end commits
end Hoglet.Lake
