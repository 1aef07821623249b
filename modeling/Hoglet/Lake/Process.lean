import Hoglet.Lake.CompactorRuns
import Hoglet.Lake.OpenRuns
import Hoglet.Lake.PublisherRuns
import Hoglet.Projections.Reachable
import Hoglet.System

/-! The process that owns the lake: its calls one after another, crashes within and between them, and
reopening. The snapshot always shows the catalogue. -/
namespace Hoglet.Lake
open Capture Projections

/-- A call on the lake. -/
inductive Call (ν U : Type) where
  | publishWindow (read : Wal.WalCursor → Except Wal.WalError (List (CapturedBatch ν U) × Wal.WalCursor))
      (reclaim : Wal.WalCursor → Except Wal.WalError Unit) (now : Int)
  | compactStep (retentionDays : Option Nat) (today : NaiveDate) (now : Int)
  | erase (projectId : String) (distinctIds : List String) (now : Int)
  | sweepGraveyard (held : LakeFile → Bool)
  | updateTables (f : Tables → Except PipelineError (Unit × Tables))

/-- A call made on a machine, the loss of the directory changes not synced, or an opening. -/
inductive Action (ν U : Type) where
  | call (m : Machine) (c : Call ν U)
  | cut (disk : Table Path (Content ν U))
  | openLake (m : Machine)

inductive Process (ν U : Type) where
  | up (w : World ν U)
  | down (w : World ν U)

section process
variable {ν U : Type} [DecidableEq U] (K : Crates ν U) (duck : Duck ν U)

def Call.steps (m : Machine) : Call ν U → Steps ν U Unit
  | .publishWindow read reclaim now => do
    let _ ← Lake.publishWindow m K read reclaim now
  | .compactStep retentionDays today now => do
    let _ ← Lake.compactStep m duck retentionDays today now
  | .erase projectId distinctIds now => do
    let _ ← Lake.erase m duck projectId distinctIds now
  | .sweepGraveyard held => do
    let _ ← Lake.sweepGraveyard m held
  | .updateTables f => Lake.updateTables m f

/-- What is left when the process has ended. -/
def World.forget (w : World ν U) : World ν U := { w with snapshot := ⟨0, .empty⟩, replaced := [], graveyard := [] }

def World.initial : World ν U := ⟨.empty, fun _ => none, .initial, 0, ⟨0, .empty⟩, [], [], 0⟩

def Process.world : Process ν U → World ν U
  | .up w | .down w => w

inductive Process.Step : Action ν U → Process ν U → Process ν U → Prop
  | returned {m : Machine} {c : Call ν U} {w w' : World ν U} (h : c.steps K duck m w = .ok () w') :
      Step (.call m c) (.up w) (.up w')
  | failed {m : Machine} {c : Call ν U} {w w' : World ν U} {e : PipelineError} (h : c.steps K duck m w = .error e w')
      (he : e ≠ .crashed) : Step (.call m c) (.up w) (.up w')
  | crashed {m : Machine} {c : Call ν U} {w w' : World ν U} (h : c.steps K duck m w = .error .crashed w') :
      Step (.call m c) (.up w) (.down w'.forget)
  | cut {s : Process ν U} {disk : Table Path (Content ν U)}
      (h : ∀ p, disk.get p = s.world.disk.get p ∨ disk.get p = s.world.stored p) :
      Step (.cut disk) s (.down { s.world.forget with disk, stored := disk.get })
  | opened {m : Machine} {w w' : World ν U} (h : openLake m w = .ok () w') : Step (.openLake m) (.down w) (.up w')
  | unopened {m : Machine} {w w' : World ν U} {e : PipelineError} (h : openLake m w = .error e w') :
      Step (.openLake m) (.down w) (.down w'.forget)

variable {K duck}

theorem Call.runs (m : Machine) (c : Call ν U) (w : World ν U) :
    Runs K duck (fun _ => True) (c.steps K duck m) w fun _ _ => True := by
  cases c with
  | publishWindow read reclaim now =>
    exact (publishWindow_runs fun _ _ _ _ => trivial).bind fun _ _ _ _ => .pure trivial
  | compactStep retentionDays today now => exact (compactStep_runs fun _ _ => trivial).bind fun _ _ _ _ => .pure trivial
  | erase projectId distinctIds now => exact (erase_runs trivial).bind fun _ _ _ _ => .pure trivial
  | sweepGraveyard held => exact sweepGraveyard_runs.bind fun _ _ _ _ => .pure trivial
  | updateTables f => exact (updateTables_runs fun _ _ _ => trivial).mono fun _ _ _ => trivial

/-- What holds of the process between its steps. -/
def Process.Kept : Process ν U → Prop
  | .up w => w.Running
  | .down w => w.Sound ∧ w.graveyard = []

omit [DecidableEq U] in
theorem World.Sound.remains {w w' : World ν U} (h : w'.Sound) (hr : w.Remains w') : w.Sound := by
  refine ⟨hr.db ▸ h.db, ?_, fun file hf => ?_⟩
  · rw [hr.db, hr.commits]
    exact h.counted
  · rw [hr.db] at hf
    rw [hr.disk, hr.stored]
    exact h.there file hf

omit [DecidableEq U] in
theorem World.Sound.forget {w : World ν U} (h : w.Sound) : w.forget.Sound := ⟨h.db, h.counted, h.there⟩

omit [DecidableEq U] in
theorem World.Sound.cut {w : World ν U} (h : w.Sound) {disk : Table Path (Content ν U)}
    (hdisk : ∀ p, disk.get p = w.disk.get p ∨ disk.get p = w.stored p) :
    ({ w.forget with disk, stored := disk.get } : World ν U).Sound := by
  refine ⟨h.db, h.counted, fun file hf => ?_⟩
  obtain ⟨content, hd, hs⟩ := h.there file hf
  have : disk.get file.path = some content := by
    rcases hdisk file.path with he | he
    · rw [he, hd]
    · rw [he, hs]
  exact ⟨content, this, this⟩

theorem Process.Step.changes {a : Action ν U} {w w' : World ν U} (hw : w.Running) (h : Step K duck a (.up w) (.up w')) :
    Changes K duck (fun _ => True) w w' := by
  cases h with
  | @returned m c _ _ h => exact ((c.runs m w hw).ok h).1
  | @failed m c _ _ e h he =>
    have hleft : Left K duck (fun _ => True) w e w' := (c.runs m w hw).error h
    obtain ⟨v, hc, -, heq⟩ := hleft
    exact heq he ▸ hc

theorem Process.Step.opened_world {a : Action ν U} {w w' : World ν U} (hs : (Process.down w).Kept)
    (h : Step K duck a (.down w) (.up w')) : w'.Opened := by
  cases h with
  | @opened m _ _ h => exact ((@openLake_ends _ _ _ m K duck _ hs.1 hs.2).ok h).1

theorem Process.kept_step {a : Action ν U} {s s' : Process ν U} (hs : s.Kept) (h : Step K duck a s s') : s'.Kept := by
  cases h with
  | returned h => exact (Step.changes hs (.returned h)).running hs
  | failed h he => exact (Step.changes hs (.failed h he)).running hs
  | @crashed m c w w' h =>
    have hleft : Left K duck (fun _ => True) w .crashed w' := (c.runs m w hs).error h
    obtain ⟨v, hc, hr, -⟩ := hleft
    exact ⟨((hc.running hs).toSound.remains hr).forget, rfl⟩
  | @cut s disk h =>
    refine ⟨World.Sound.cut ?_ h, rfl⟩
    cases s with
    | up w => exact World.Running.toSound hs
    | down w => exact hs.1
  | @opened m _ _ h => exact ((@openLake_ends _ _ _ m K duck _ hs.1 hs.2).ok h).1.running
  | @unopened m _ _ _ h => exact ⟨(Changes.sound hs.1 ((@openLake_ends _ _ _ m K duck _ hs.1 hs.2).error h)).forget, rfl⟩

omit [DecidableEq U] in
theorem World.sound_initial : (World.initial : World ν U).Sound := by
  have hempty : ∀ id row, Database.initial.files.get id ≠ some row := fun _ _ h => by cases h
  have hdb : Database.initial.Sound :=
    ⟨.nil, fun id row h => absurd h (hempty id row), fun i _ r _ h => absurd h (hempty i r)⟩
  refine ⟨hdb, rfl, fun file hf => ?_⟩
  obtain ⟨row, hrow, -⟩ := hdb.mem_liveFiles.mp hf
  exact absurd hrow (hempty _ row)

/-- However the process got where it is, what holds between steps holds. -/
theorem Process.kept {ok : Action ν U → Process ν U → Prop} {s : Process ν U}
    (h : System.Reached (.down World.initial) (Step K duck) ok s) : s.Kept :=
  h.invariant ⟨World.sound_initial, rfl⟩ fun _ _ _ hs _ hstep => kept_step hs hstep

/-- The generation counts the commits, and the file of every live row is on the disk, also after a crash. -/
def World.Catalogued (w : World ν U) : Prop :=
  w.db.state.generation = w.commits ∧
    ∀ file ∈ w.db.liveFiles, ∃ content, w.disk.get file.path = some content ∧ w.stored file.path = some content

/-- The snapshot lists the live rows under their project and day, in the generation of the database. -/
def World.Shown (w : World ν U) : Prop :=
  w.snapshot.generation = w.db.state.generation ∧
    ∀ p d, w.snapshot.files p d = w.db.liveFiles.filter fun file => file.projectId = p ∧ file.day = d

/-- Whether a computation returns, in a world that passes the test. -/
def Steps.returns {α : Type} (x : Steps ν U α) (w : World ν U) (test : World ν U → Bool) : Bool :=
  match x w with
  | .ok _ w' => test w'
  | .error _ _ => false

omit [DecidableEq U] in
theorem Steps.of_returns {x : Steps ν U Unit} {w : World ν U} {test : World ν U → Bool} (h : x.returns w test = true) :
    ∃ w', x w = .ok () w' ∧ test w' = true := by
  unfold Steps.returns at h
  cases hx : x w with
  | ok _ w' =>
    rw [hx] at h
    exact ⟨w', rfl, h⟩
  | error e w' =>
    rw [hx] at h
    cases h

theorem snapshot_shows_catalogue {s : Process ν U} (h : System.Reached (.down World.initial) (Process.Step K duck) System.anyStep s) :
    s.world.Catalogued ∧ ∀ w, s = .up w → w.Shown := by
  have hs := Process.kept h
  cases s with
  | up w =>
    refine ⟨⟨hs.counted, hs.there⟩, ?_⟩
    rintro _ ⟨⟩
    exact ⟨hs.generation, hs.files⟩
  | down w => exact ⟨⟨hs.1.counted, hs.1.there⟩, fun _ h => (by cases h)⟩

end process

def sampleBatch : CapturedBatch Int Small.Uuid := ⟨[linkEvent], ⟨[("phc_t", "p")], by simp [Json.Sorted]⟩, false, 0⟩

/-- The publication of one record. -/
def samplePublication : Call Int Small.Uuid := .publishWindow (fun _ => .ok ([sampleBatch], ⟨2, 0⟩)) (fun _ => .ok ()) 0

theorem sample_reached {ok : Action Int Small.Uuid → Process Int Small.Uuid → Prop} (hok : ∀ a s, ok a s) :
    ∃ w, System.Reached (.down World.initial) (Process.Step Crates.small .plain) ok (.up w) ∧ w.db.liveFiles.map LakeFile.rows = [1] := by
  have h : (openLake .reliable).returns World.initial (fun w => (samplePublication.steps Crates.small .plain .reliable).returns w
      fun w => w.db.liveFiles.map LakeFile.rows = [1]) = true := by
    decide +kernel
  obtain ⟨w₁, h₁, h⟩ := Steps.of_returns h
  obtain ⟨w₂, h₂, h⟩ := Steps.of_returns h
  exact ⟨w₂, .step (.step .start (hok _ _) (.opened h₁)) (hok _ _) (.returned h₂), of_decide_eq_true h⟩

theorem snapshot_shows_published : ∃ w : World Int Small.Uuid, w.db.liveFiles.map LakeFile.rows = [1] ∧ w.Catalogued ∧ w.Shown := by
  obtain ⟨w, hreached, hrows⟩ := @sample_reached System.anyStep fun _ _ => trivial
  exact ⟨w, hrows, (snapshot_shows_catalogue hreached).1, (snapshot_shows_catalogue hreached).2 w rfl⟩

end Hoglet.Lake
