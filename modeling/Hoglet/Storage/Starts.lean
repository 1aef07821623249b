import Hoglet.Storage.Bootstrap
import Hoglet.System

/-! Starts one after the other on a data directory, each of which may die between two steps: the files they leave
are at one of five stages. -/
namespace Hoglet.Storage

/-- What the starts so far have left: nothing, staged databases, a published projections database with control
still staged, or the pair. -/
inductive Stage where
  | fresh
  | stagedControl (pairId : String)
  | staged (pairId : String)
  | published (pairId : String)
  | ready (pairId : String)
  deriving DecidableEq, Repr

def stored (role : DatabaseRole) (pairId : String) : Option Entry := some (.file (some (createdDatabase role pairId)))

def Stage.disk : Stage → Disk
  | .fresh => fun _ => none
  | .stagedControl pairId => fun
    | .controlMigrating => stored .control pairId
    | _ => none
  | .staged pairId => fun
    | .controlMigrating => stored .control pairId
    | .projectionsMigrating => stored .projections pairId
    | _ => none
  | .published pairId => fun
    | .controlMigrating => stored .control pairId
    | .projections => stored .projections pairId
    | _ => none
  | .ready pairId => fun
    | .control => stored .control pairId
    | .projections => stored .projections pairId
    | _ => none

/-- The steps of `create_pair` from the first staged database to the first published one, before which a death
leaves staged files only. -/
def stagingSteps : List Step :=
  [.createDatabase .projections .projectionsMigrating,
   .hardenFilePermissions .controlMigrating,
   .hardenFilePermissions .projectionsMigrating,
   .syncFile .controlMigrating,
   .syncFile .projectionsMigrating,
   .rename .projectionsMigrating .projections]

def Start.DiesStaging (start : Start) : Prop := ∃ step ∈ stagingSteps, start.dies = some step

/-- What a start makes of a stage. -/
def Stage.next (start : Start) : Stage → Stage
  | .fresh =>
    if start.dies ∈ [some (.removeGeneratedTemporary .controlMigrating), some (.removeGeneratedTemporary .projectionsMigrating),
      some (.ensureParent .control), some (.ensureParent .projections), some (.createDatabase .control .controlMigrating)] then .fresh
    else if start.dies = some (.createDatabase .projections .projectionsMigrating) then .stagedControl start.pairId
    else if start.dies ∈ stagingSteps.map some then .staged start.pairId
    else if start.dies = some (.syncParent .projections) ∨ start.dies = some (.rename .controlMigrating .control) then
      .published start.pairId
    else .ready start.pairId
  | .published pairId => if start.dies = some (.rename .controlMigrating .control) then .published pairId else .ready pairId
  | stage => stage

def Stage.Drawn : Stage → Prop
  | .fresh => True
  | .stagedControl p | .staged p | .published p | .ready p => p ≠ ""

section stages
variable {start : Start} {disk disk' : Disk}

/-- A run that does not die at the head of its list goes on with what the head leaves. -/
theorem runSteps_cons {step : Step} {steps : List Step} (h : start.dies ≠ some step) (happly : step.apply start.pairId disk = some disk') :
    runSteps start (step :: steps) disk = runSteps start steps disk' := by
  rw [runSteps, if_neg h, happly]

theorem validate_ready {p : String} (h : p ≠ "") :
    validatePairReadOnly (Stage.ready p).disk .control .projections = .ok ⟨p, 0, 0⟩ := by
  simp [validatePairReadOnly, openDatabaseReadOnly, Stage.disk, stored, validateHeader, createdDatabase, readPairId,
    DatabaseRole.schemaVersion, bind, Except.bind, h, pure, Except.pure]

theorem validate_published {p : String} (h : p ≠ "") :
    validatePairReadOnly (Stage.published p).disk .controlMigrating .projections = .ok ⟨p, 0, 0⟩ := by
  simp [validatePairReadOnly, openDatabaseReadOnly, Stage.disk, stored, validateHeader, createdDatabase, readPairId,
    DatabaseRole.schemaVersion, bind, Except.bind, h, pure, Except.pure]

private theorem pragmas_disk : (runSteps start [.setRuntimePragmas .control, .setRuntimePragmas .projections] disk).2 = disk := by
  simp only [runSteps, Step.apply]
  split
  · rfl
  · split <;> rfl

/-- Once the pair is ready, only a death while its pragmas are set keeps a start from coming up. -/
private theorem bootstrap_ready {steps : List Step} {p : String} (hsteps : bootstrapSteps disk = .ok steps) (h : p ≠ "")
    (hrun : runSteps start steps disk = (.ok (), (Stage.ready p).disk)) :
    (bootstrapStorage start disk).2 = (Stage.ready p).disk ∧
      (start.dies = none → bootstrapStorage start disk = (.ok ⟨p, 0, 0⟩, (Stage.ready p).disk)) := by
  have hpragmas : (runSteps start [.setRuntimePragmas .control, .setRuntimePragmas .projections] (Stage.ready p).disk).2 = (Stage.ready p).disk :=
    pragmas_disk
  unfold bootstrapStorage
  rw [hsteps]
  simp only [hrun, validate_ready h]
  constructor
  · split
    · rename_i hstop
      rw [hstop] at hpragmas
      exact hpragmas
    · rename_i hdone
      rw [hdone] at hpragmas
      exact hpragmas
  · intro hlives
    simp [runSteps, hlives, Step.apply]

private theorem bootstrap_died {steps : List Step} {stop : Stop} (hsteps : bootstrapSteps disk = .ok steps)
    (hrun : runSteps start steps disk = (.error stop, disk')) : bootstrapStorage start disk = (.error stop, disk') := by
  unfold bootstrapStorage
  rw [hsteps]
  simp only [hrun]

/-- The steps of a first start. -/
def freshSteps : List Step := .removeGeneratedTemporary .controlMigrating :: .removeGeneratedTemporary .projectionsMigrating :: createPair

/-- A start on an empty directory that dies before one of its steps leaves what the steps before it made. -/
private theorem fresh_dies (h : start.dies ∈ freshSteps.map some) :
    runSteps start freshSteps Stage.fresh.disk = (.error .died, (Stage.fresh.next start).disk) := by
  simp only [freshSteps, createPair, List.map_cons, List.map_nil, List.mem_cons, List.not_mem_nil, or_false] at h
  rcases h with h | h | h | h | h | h | h | h | h | h | h | h | h | h
  all_goals
    simp [runSteps, freshSteps, h, createPair, Step.apply, Disk.exists, Stage.next, stagingSteps, Stage.disk]
  all_goals
    funext path
    cases path <;> rfl

private theorem fresh_lives (h : start.dies ∉ freshSteps.map some) :
    runSteps start freshSteps Stage.fresh.disk = (.ok (), (Stage.ready start.pairId).disk) ∧ Stage.fresh.next start = .ready start.pairId := by
  simp only [freshSteps, createPair, List.map_cons, List.map_nil, List.mem_cons, List.not_mem_nil, or_false, not_or] at h
  obtain ⟨h1, h2, h3, h4, h5, h6, h7, h8, h9, h10, h11, h12, h13, h14⟩ := h
  constructor
  · simp only [runSteps, freshSteps, createPair, h1, h2, h3, h4, h5, h6, h7, h8, h9, h10, h11, h12, h13, h14, if_false, Step.apply]
    simp [Disk.exists, Stage.disk]
    funext path
    cases path <;> rfl
  · simp [Stage.next, stagingSteps, h1, h2, h3, h4, h5, h6, h7, h8, h9, h10, h11, h12, h13]

theorem prepare_fresh : prepareStorage start Stage.fresh.disk = bootstrapStorage start Stage.fresh.disk := rfl

theorem prepare_published {p : String} : prepareStorage start (Stage.published p).disk = bootstrapStorage start (Stage.published p).disk := rfl

theorem prepare_ready {p : String} (h : p ≠ "") :
    prepareStorage start (Stage.ready p).disk = bootstrapStorage start (Stage.ready p).disk := by
  have hinspect : inspectStorage (Stage.ready p).disk = .ok (.readyV2 ⟨p, 0, 0⟩) := by
    change (validatePairReadOnly (Stage.ready p).disk .control .projections).map StorageDisposition.readyV2 = _
    rw [validate_ready h]
    rfl
  rw [prepareStorage, hinspect]

private theorem published_steps {p : String} (h : p ≠ "") :
    bootstrapSteps (Stage.published p).disk = .ok [.rename .controlMigrating .control, .syncParent .control] :=
  congrArg (Except.map fun _ => _) (validate_published h)

private theorem published_renames (start : Start) {p : String} :
    Step.apply start.pairId (Stage.published p).disk (.rename .controlMigrating .control) = some (Stage.ready p).disk := by
  simp only [Step.apply, Disk.exists, Stage.disk, Option.isSome_some, stored, if_true, Option.some.injEq]
  funext path
  cases path <;> rfl

/-- A start takes the files from stage to stage. -/
theorem prepare_stage (start : Start) (stage : Stage) (h : stage.Drawn) : (prepareStorage start stage.disk).2 = (stage.next start).disk := by
  cases stage with
  | fresh =>
    rw [prepare_fresh]
    by_cases hdies : start.dies ∈ freshSteps.map some
    · rw [bootstrap_died rfl (fresh_dies hdies)]
    · obtain ⟨hrun, hnext⟩ := fresh_lives hdies
      rw [hnext]
      exact (bootstrap_ready rfl start.drawn hrun).1
  | stagedControl p => rfl
  | staged p => rfl
  | published p =>
    rw [prepare_published]
    by_cases hdies : start.dies = some (.rename .controlMigrating .control)
    · rw [bootstrap_died (published_steps h) (by rw [runSteps, if_pos hdies]), Stage.next, if_pos hdies]
    · rw [Stage.next, if_neg hdies]
      by_cases hsync : start.dies = some (.syncParent .control)
      · rw [bootstrap_died (published_steps h) (by rw [runSteps_cons hdies (published_renames start), runSteps, if_pos hsync])]
      · refine (bootstrap_ready (published_steps h) h ?_).1
        rw [runSteps_cons hdies (published_renames start), runSteps_cons hsync rfl, runSteps]
  | ready p =>
    rw [prepare_ready h]
    exact (bootstrap_ready rfl h rfl).1

/-- Where a start that lives comes up. -/
def Stage.pair (start : Start) : Stage → Option String
  | .fresh => some start.pairId
  | .stagedControl _ | .staged _ => none
  | .published pairId | .ready pairId => some pairId

/-- A start that lives comes up with the pair, unless files are staged and none is published. -/
theorem prepare_lives {stage : Stage} {p : String} (h : stage.Drawn) (hpair : stage.pair start = some p) (hlives : start.dies = none) :
    prepareStorage start stage.disk = (.ok ⟨p, 0, 0⟩, (Stage.ready p).disk) := by
  cases stage with
  | fresh =>
    cases hpair
    exact (bootstrap_ready rfl start.drawn (fresh_lives (by simp [hlives])).1).2 hlives
  | stagedControl p | staged p => cases hpair
  | published p =>
    cases hpair
    refine (bootstrap_ready (published_steps h) h ?_).2 hlives
    rw [runSteps_cons (by simp [hlives]) (published_renames start), runSteps_cons (by simp [hlives]) rfl, runSteps]
  | ready p =>
    cases hpair
    rw [prepare_ready h]
    exact (bootstrap_ready rfl h rfl).2 hlives

/-- With staged files and none published, every start is refused and leaves the files as they are. -/
theorem prepare_refuses {stage : Stage} (hpair : stage.pair start = none) :
    prepareStorage start stage.disk = (.error .migrationIncomplete, stage.disk) := by
  cases stage with
  | stagedControl p | staged p => rfl
  | fresh | published p | ready p => cases hpair

theorem Stage.drawn_next {stage : Stage} (h : stage.Drawn) : (stage.next start).Drawn := by
  cases stage with
  | fresh =>
    simp only [Stage.next]
    split
    · trivial
    · have hdrawn := start.drawn
      split
      · exact hdrawn
      · split
        · exact hdrawn
        · split <;> exact hdrawn
  | stagedControl p | staged p => exact h
  | published p =>
    simp only [Stage.next]
    split <;> exact h
  | ready p => exact h

end stages

section claims

def Disk.empty : Disk := fun _ => none

/-- What a start leaves is what the next one finds. -/
def Started (start : Start) (disk disk' : Disk) : Prop := disk' = (prepareStorage start disk).2

/-- A first start does not die with staged files only. -/
def DiesElsewhere (start : Start) (disk : Disk) : Prop := disk = .empty → ¬ start.DiesStaging

private theorem fresh_next {start : Start} (h : ¬ start.DiesStaging) : ((Stage.fresh.next start).pair start).isSome := by
  have hno : ∀ step ∈ stagingSteps, start.dies ≠ some step := fun step hmem hdies => h ⟨step, hmem, hdies⟩
  have hfirst := hno _ List.mem_cons_self
  have hnone : start.dies ∉ stagingSteps.map some := by
    rintro hmem
    obtain ⟨step, hstep, hdies⟩ := List.mem_map.mp hmem
    exact hno step hstep hdies.symm
  simp only [Stage.next, if_neg hfirst, if_neg hnone]
  split
  · rfl
  · split <;> rfl

private theorem staging_next {start : Start} (h : start.DiesStaging) : (Stage.fresh.next start).pair start = none := by
  obtain ⟨step, hmem, hdies⟩ := h
  simp only [stagingSteps, List.mem_cons, List.not_mem_nil, or_false] at hmem
  rcases hmem with rfl | rfl | rfl | rfl | rfl | rfl
  all_goals
    simp [Stage.next, hdies, stagingSteps, Stage.pair]

/-- As long as no first start dies with staged files only, the files are at a stage that the next start comes up from. -/
private theorem reached_stage {disk : Disk} (h : System.Reached .empty Started DiesElsewhere disk) :
    ∃ stage : Stage, disk = stage.disk ∧ stage.Drawn ∧ ∀ start, (stage.pair start).isSome := by
  refine h.invariant (P := fun disk => ∃ stage : Stage, disk = stage.disk ∧ stage.Drawn ∧ ∀ start, (stage.pair start).isSome)
    ⟨.fresh, rfl, trivial, fun _ => rfl⟩ ?_
  rintro start _ _ ⟨stage, rfl, hdrawn, hpair⟩ hok rfl
  refine ⟨stage.next start, prepare_stage start stage hdrawn, Stage.drawn_next hdrawn, ?_⟩
  cases stage with
  | fresh =>
    have hnext := fresh_next (hok rfl)
    generalize Stage.fresh.next start = stage at hnext ⊢
    intro start'
    cases stage with
    | fresh | published p | ready p => rfl
    | stagedControl p | staged p => cases hnext
  | stagedControl p | staged p => cases hpair start
  | published p =>
    simp only [Stage.next]
    split <;> exact fun _ => rfl
  | ready p => exact fun _ => rfl

/-- Starts survive deaths of earlier ones, wherever they died except between the first staged database and the
first published one; a death there leaves files that every later start refuses and keeps. No start replaces or
deletes a published database. -/
theorem first_start_survives :
    (∀ disk, System.Reached .empty Started DiesElsewhere disk → ∀ start, start.dies = none →
      ∃ metadata disk', prepareStorage start disk = (.ok metadata, disk') ∧
        validatePairReadOnly disk' .control .projections = .ok metadata) ∧
    (∀ start, start.DiesStaging → ∀ disk, System.Reached (prepareStorage start .empty).2 Started System.anyStep disk →
      ∀ start', prepareStorage start' disk = (.error .migrationIncomplete, (prepareStorage start .empty).2)) ∧
    ∀ start disk path entry, path = .control ∨ path = .projections → disk path = some entry →
      (prepareStorage start disk).2 path = some entry := by
  refine ⟨fun disk h start hlives => ?_, fun start hdies disk h => ?_, fun start disk path entry => published_kept⟩
  · obtain ⟨stage, rfl, hdrawn, hpair⟩ := reached_stage h
    obtain ⟨p, hp⟩ := Option.isSome_iff_exists.mp (hpair start)
    refine ⟨_, _, prepare_lives hdrawn hp hlives, validate_ready ?_⟩
    cases stage with
    | fresh =>
      cases hp
      exact start.drawn
    | stagedControl p | staged p => cases hp
    | published p | ready p =>
      cases hp
      exact hdrawn
  · have hleft : (prepareStorage start .empty).2 = (Stage.fresh.next start).disk := prepare_stage start .fresh trivial
    have hrefused : ∀ start', prepareStorage start' (Stage.fresh.next start).disk =
        (.error .migrationIncomplete, (Stage.fresh.next start).disk) := by
      intro start'
      refine prepare_refuses ?_
      have hnext := staging_next hdies
      generalize Stage.fresh.next start = stage at hnext ⊢
      cases stage with
      | fresh | published p | ready p => cases hnext
      | stagedControl p | staged p => rfl
    rw [hleft] at h ⊢
    have hsame : disk = (Stage.fresh.next start).disk := by
      refine h.invariant (P := fun disk => disk = (Stage.fresh.next start).disk) rfl ?_
      rintro start' _ _ rfl - rfl
      rw [hrefused start']
    rw [hsame]
    exact hrefused

end claims

def living : Start := ⟨"b", by decide, none⟩

def dyingBeforeControl : Start := ⟨"a", by decide, some (.rename .controlMigrating .control)⟩

def dyingStaged : Start := ⟨"a", by decide, some (.rename .projectionsMigrating .projections)⟩

theorem recovers_published_projections : ∃ metadata disk',
    prepareStorage living (prepareStorage dyingBeforeControl .empty).2 = (.ok metadata, disk') ∧
      validatePairReadOnly disk' .control .projections = .ok metadata :=
  first_start_survives.1 _ (.step .start (fun _ h => by simp [Start.DiesStaging, stagingSteps, dyingBeforeControl] at h) rfl) living rfl

/-- A first start that dies with both databases staged keeps the next one from coming up. -/
theorem staged_pair_refused : System.Reached .empty Started System.anyStep (prepareStorage dyingStaged .empty).2 ∧
    (prepareStorage living (prepareStorage dyingStaged .empty).2).1 = .error .migrationIncomplete :=
  ⟨.step .start trivial rfl, rfl⟩

end Hoglet.Storage
