import Hoglet.Lake.Process
import Hoglet.Stamps

/-! The version of a project's files: while the process runs, leases of one version show the same files,
and a change of the files moves the version on. -/
namespace Hoglet.Lake
open Capture Projections

namespace World
variable {ν U : Type}

/-- The snapshots of the process, the newest first. -/
def snapshots (w : World ν U) : List Snapshot := w.snapshot :: w.replaced

/-- What the versions of the process's snapshots keep. -/
structure Versions (w : World ν U) : Prop where
  stamped : ∀ p, Stamped ProjectFiles.version (w.snapshots.map fun s => s.projects.get p)
  versioned : ∀ s ∈ w.snapshots, s.Versioned w.db.state.generation

end World

/-- A project's version is the stamp of its files. -/
theorem Snapshot.version_eq_stamp (s : Snapshot) (p : String) : s.version p = stampOf ProjectFiles.version (s.projects.get p) := by
  rw [version, project, stampOf]
  cases s.projects.get p <;> rfl

theorem Snapshot.lease_version (s : Snapshot) (p : String) (first toExclusive : NaiveDate) :
    (s.lease p first toExclusive).version = s.version p := by
  rw [lease, version, project]
  cases s.projects.get p <;> rfl

/-- What a lease shows depends on the project's files alone. -/
theorem Snapshot.lease_congr {s s' : Snapshot} {p : String} (h : s.projects.get p = s'.projects.get p) :
    (∀ d, s.files p d = s'.files p d) ∧ ∀ first toExclusive, s.lease p first toExclusive = s'.lease p first toExclusive := by
  refine ⟨fun d => ?_, fun first toExclusive => ?_⟩
  · rw [files, files, project, project, h]
  · rw [lease, lease, h]

theorem Snapshot.Versioned.zero_iff {s : Snapshot} {bound : Nat} (h : s.Versioned bound) (p : String) :
    s.projects.get p = none ↔ ∀ d, s.files p d = [] := by
  refine ⟨fun hp d => ?_, h.project_none⟩
  rw [files, project, hp]
  rfl

theorem Snapshot.Versioned.activate {s : Snapshot} {generation : Nat} (h : s.Versioned generation) (added : List LakeFile)
    (retired : List Nat) : (s.activate (generation + 1) added retired).1.Versioned (generation + 1) := by
  refine ⟨Snapshot.activate_trim _ _ _ _ h.toTrim, fun p project hp => ?_⟩
  rcases s.activate_project (generation + 1) added retired h.days p with hsame | hnone | ⟨_, hnew, hversion⟩
  · rw [hsame] at hp
    exact ⟨(h.positive p project hp).1, (h.positive p project hp).2.trans (Nat.le_succ _)⟩
  · rw [hnone] at hp
    cases hp
  · rw [hnew] at hp
    cases hp
    exact ⟨hversion ▸ Nat.succ_pos _, hversion.le⟩

section process
variable {ν U : Type} [DecidableEq U] {K : Crates ν U} {duck : Duck ν U} {w w' : World ν U}

theorem Change.versions {c : Option (Commit ν U)} (hw : w.Running) (hv : w.Versions) (h : Change K duck w c w') : w'.Versions := by
  cases h with
  | quiet | recorded | unburied | purged => exact ⟨hv.stamped, hv.versioned⟩
  | @committed c tx added retired h =>
    have hnew := (hv.versioned _ List.mem_cons_self).activate added retired
    rw [← h.generation] at hnew
    refine ⟨fun p => ?_, fun s hs => ?_⟩
    · have hold := hv.stamped p
      rw [World.snapshots, List.map_cons] at hold
      change Stamped _ ((w.snapshot.activate tx.state.generation added retired).1.projects.get p :: w.snapshot.projects.get p ::
        w.replaced.map fun s => s.projects.get p)
      rcases w.snapshot.activate_project tx.state.generation added retired hw.trim.days p with hsame | hnone | ⟨project, hp, hversion⟩
      · rw [hsame]
        exact hold.same
      · rw [hnone]
        exact hold.emptied
      · rw [hp]
        refine hold.moved fun o ho => ?_
        obtain ⟨s, hs, rfl⟩ := List.mem_map.mp (show o ∈ w.snapshots.map fun s => s.projects.get p from ho)
        rw [hversion, h.generation, Nat.lt_succ_iff]
        cases hp' : s.projects.get p with
        | none => exact Nat.zero_le _
        | some project' => exact ((hv.versioned s hs).positive p project' hp').2
    · rcases List.mem_cons.mp hs with rfl | hs
      · exact hnew
      · have hold := hv.versioned s hs
        refine ⟨hold.toTrim, fun p project hp => ⟨(hold.positive p project hp).1, (hold.positive p project hp).2.trans ?_⟩⟩
        exact (Nat.le_succ _).trans h.generation.ge

theorem Changes.versions {ok : Commit ν U → Prop} (hw : w.Running) (hv : w.Versions) (h : Changes K duck ok w w') :
    w'.Versions := by
  induction h with
  | refl => exact hv
  | tail hc h ih =>
    obtain ⟨c, -, h⟩ := h
    exact h.versions (Changes.running hw hc) ih

omit [DecidableEq U] in
theorem World.Opened.versions (h : w.Opened) : w.Versions := by
  refine ⟨fun p => ?_, fun s hs => ?_⟩
  · rw [World.snapshots, h.readers]
    exact .start fun project hp => (h.versioned.positive p project hp).1
  · rw [World.snapshots, h.readers] at hs
    rw [List.mem_singleton.mp hs]
    exact h.versioned

/-- What holds between steps, versions included. -/
theorem Process.versions {ok : Action ν U → Process ν U → Prop} {s : Process ν U}
    (h : System.Reached (.down World.initial) (Step K duck) ok s) : s.Kept ∧ ∀ w, s = .up w → w.Versions := by
  refine h.invariant (P := fun s => s.Kept ∧ ∀ w, s = .up w → w.Versions) ⟨⟨World.sound_initial, rfl⟩, fun _ h => (by cases h)⟩ ?_
  rintro a s s' ⟨hs, hv⟩ - hstep
  refine ⟨kept_step hs hstep, ?_⟩
  rintro w' rfl
  cases s with
  | up w => exact (hstep.changes hs).versions hs (hv w rfl)
  | down w => exact (hstep.opened_world hs).versions

/-- Two leases of a project that carry one version show the same files; the version is zero exactly when
there are none; and a change of a project's files brings a version that no earlier snapshot has, or zero. -/
theorem equal_versions_show_equal_files {w : World ν U}
    (h : System.Reached (.down World.initial) (Process.Step K duck) System.anyStep (.up w)) :
    (∀ s ∈ w.snapshots, ∀ s' ∈ w.snapshots, ∀ p first toExclusive first' toExclusive',
      (s.lease p first toExclusive).version = (s'.lease p first' toExclusive').version →
        (∀ d, s.files p d = s'.files p d) ∧ s.lease p first toExclusive = s'.lease p first toExclusive) ∧
    (∀ s ∈ w.snapshots, ∀ p, s.version p = 0 ↔ ∀ d, s.files p d = []) ∧
    ∀ before s s' after, w.snapshots = before ++ s :: s' :: after → ∀ p, (∃ d, s.files p d ≠ s'.files p d) →
      s.version p = 0 ∨ ∀ old ∈ s' :: after, old.version p ≠ s.version p := by
  have hv := (Process.versions h).2 w rfl
  have hmem : ∀ s ∈ w.snapshots, ∀ p, s.projects.get p ∈ w.snapshots.map fun s => s.projects.get p :=
    fun s hs p => List.mem_map_of_mem (f := fun s => s.projects.get p) hs
  refine ⟨fun s hs s' hs' p first toExclusive first' toExclusive' heq => ?_, fun s hs p => ?_, fun before s s' after hlist p hne => ?_⟩
  · rw [Snapshot.lease_version, Snapshot.lease_version, Snapshot.version_eq_stamp, Snapshot.version_eq_stamp] at heq
    obtain ⟨hfiles, hlease⟩ := Snapshot.lease_congr ((hv.stamped p).eq_of_stamp _ (hmem s hs p) _ (hmem s' hs' p) heq)
    exact ⟨hfiles, hlease first toExclusive⟩
  · rw [Snapshot.version_eq_stamp, (hv.stamped p).zero_iff (hmem s hs p)]
    exact (hv.versioned s hs).zero_iff p
  · have hs := hv.stamped p
    rw [hlist, List.map_append, List.map_cons, List.map_cons] at hs
    have hne' : s.projects.get p ≠ s'.projects.get p := fun heq => by
      obtain ⟨d, hd⟩ := hne
      exact hd ((Snapshot.lease_congr heq).1 d)
    rw [Snapshot.version_eq_stamp]
    refine (hs.before.changed hne').imp (fun hnone => ?_) fun hlt old hold => ?_
    · rw [hnone]
      rfl
    · rw [Snapshot.version_eq_stamp]
      refine Nat.ne_of_lt (hlt _ ?_)
      exact List.mem_map_of_mem (f := fun s : Snapshot => s.projects.get p) hold

end process

/-- After one publication. -/
theorem published_version_shows_files : ∃ w : World Int Small.Uuid, w.db.liveFiles.map LakeFile.rows = [1] ∧
    ∀ s ∈ w.snapshots, ∀ p, s.version p = 0 ↔ ∀ d, s.files p d = [] := by
  obtain ⟨w, hreached, hrows⟩ := @sample_reached System.anyStep fun _ _ => trivial
  exact ⟨w, hrows, (equal_versions_show_equal_files hreached).2.1⟩

end Hoglet.Lake
