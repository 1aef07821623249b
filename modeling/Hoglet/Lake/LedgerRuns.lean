import Hoglet.Lake.Ledger

/-! The entries that the calls of the process make, however they end, and what the lake holds after a run. -/
namespace Hoglet.Lake
open Capture Projections

section calls
variable {ν U : Type} [DecidableEq U] {m : Machine} {K : Crates ν U} {duck : Duck ν U} {w w' : World ν U}

omit [DecidableEq U] in
private theorem Touches.commits {S : Path → Prop} (h : Touches S w w') : w'.commits = w.commits := by rw [h.same]

/-- Publication commits at most once. -/
private theorem publishRead_commits {reclaim : Wal.WalCursor → Except Wal.WalError Unit} {now : Int}
    {records : List (CapturedBatch ν U)} {next : Wal.WalCursor} (hw : w.db.Sound) :
    Ends (publishRead m K reclaim now w.db records next) w (fun _ w' => w'.commits ≤ w.commits + 1)
      fun _ w' => w'.commits ≤ w.commits + 1 := by
  have hidle : ∀ {v : World ν U}, Touches (fun _ => True) w v → ∀ (_ : PipelineError) v', Idled v v' → v'.commits ≤ w.commits + 1 := by
    intro v hv _ v' h
    rw [(hv.trans (h.touches _)).commits]
    exact Nat.le_succ _
  refine (statement_works (.ok ())).ends (fun _ w₁ ht₁ _ => ?_) (hidle (.refl _ w))
  have h₁ := ht₁.touches fun _ => True
  refine (statement_works _).ends (fun r w₂ ht₂ _ => ?_) (hidle h₁)
  have h₂ := h₁.trans (ht₂.touches _)
  refine (statement_works _).ends (fun catalog w₃ ht₃ _ => ?_) (hidle h₂)
  have h₃ := h₂.trans (ht₃.touches _)
  have hins : w.db.Inserted (w.db.state.generation + 1) { w.db with tables := r.2, catalog } [] := hw.inserted _ rfl rfl
  refine (publishFiles_works hins).ends (fun r w₄ ht₄ _ => ?_) fun e w' ht => ?_
  swap
  · rw [(h₃.trans (ht.mono fun _ _ => trivial)).commits]
    exact Nat.le_succ _
  have h₄ := h₃.trans (ht₄.mono fun _ _ => trivial)
  obtain ⟨result, written⟩ := r
  cases result with
  | error e =>
    have hremoved : Works (fun _ => True) (removeFiles m written) w₄ fun _ _ => True := removeFiles_works fun _ _ => trivial
    refine Ends.bind (Ends.mono hremoved (fun _ w' ht => Ends.throw ?_) fun e w' ht => ?_)
    · rw [(h₄.trans ht.1).commits]
      exact Nat.le_succ _
    · rw [(h₄.trans ht).commits]
      exact Nat.le_succ _
  | ok result =>
    refine (statement_works _).ends (fun tx w₅ ht₅ _ => ?_) (hidle h₄)
    have h₅ := h₄.trans (ht₅.touches _)
    refine Ends.bind ((commit_ends tx).mono (fun _ w₆ hw₆ => ?_) fun e w' ht => hidle h₅ e w' ht)
    refine Ends.bind (Ends.modify ?_)
    have hdone : (w₆.commits : Nat) = w.commits + 1 := by
      rw [hw₆, ← h₅.commits]
      rfl
    refine reclaimThrough_along.ends (fun _ w₇ ht₇ _ => Ends.pure ?_) fun e w' ht => ?_
    · rw [(ht₇.touches fun _ => True).commits]
      exact hdone.le
    · rw [(ht.touches fun _ => True).commits]
      exact hdone.le

private theorem publishWindow_commits {read : Wal.WalCursor → Except Wal.WalError (List (CapturedBatch ν U) × Wal.WalCursor)}
    {reclaim : Wal.WalCursor → Except Wal.WalError Unit} {now : Int} (hw : w.db.Sound) :
    Ends (publishWindow m K read reclaim now) w (fun _ w' => w'.commits ≤ w.commits + 1) fun _ w' => w'.commits ≤ w.commits + 1 := by
  have hidle : ∀ (_ : PipelineError) v, Idled w v → v.commits ≤ w.commits + 1 := by
    rintro _ v ⟨n, rfl⟩
    exact Nat.le_succ _
  refine (statement_works (.ok ())).ends (fun _ w₁ ht₁ _ => ?_) hidle
  refine Ends.bind (Ends.get ?_)
  obtain ⟨n, rfl⟩ := ht₁
  simp only
  cases read w.db.state.checkpoint with
  | error e => exact Ends.throw (Nat.le_succ _)
  | ok window =>
    obtain ⟨records, next⟩ := window
    simp only
    split
    · split
      · exact Ends.pure (Nat.le_succ _)
      · exact reclaimThrough_along.ends (fun _ w₂ _ hw₂ => Ends.pure (hw₂ ▸ Nat.le_succ _)) fun e v ht =>
          hidle e v (trans_of Idled ⟨n, rfl⟩ ht)
    · exact Ends.bind ((publishRead_commits (w := { w with ops := n }) hw).mono (fun _ _ h => Ends.pure h) fun _ _ h => h)

/-- The commits that a call may make. -/
def Call.Commits (w : World ν U) : Call ν U → Commit ν U → Prop
  | .publishWindow read _ _, c => ∃ records next, read w.db.state.checkpoint = .ok (records, next) ∧ records ≠ [] ∧ c = .published records next
  | .compactStep retentionDays today _, c => stepCommits retentionDays today c
  | .erase projectId distinctIds _, c => c = .erased projectId distinctIds
  | .sweepGraveyard _, _ => False
  | .updateTables _, c => ∃ tables, c = .recorded tables

theorem Call.runs_commits (m : Machine) (c : Call ν U) (w : World ν U) :
    Runs K duck (c.Commits w) (c.steps K duck m) w fun _ _ => True := by
  cases c with
  | publishWindow read reclaim now =>
    exact (publishWindow_runs fun records next hread hne => ⟨records, next, hread, hne, rfl⟩).bind fun _ _ _ _ => .pure trivial
  | compactStep retentionDays today now =>
    have h : Runs K duck (stepCommits retentionDays today) (Lake.compactStep m duck retentionDays today now) w fun _ _ => True :=
      compactStep_runs fun _ h => h
    exact h.bind fun _ _ _ _ => .pure trivial
  | erase projectId distinctIds now =>
    have h : Runs K duck (· = .erased projectId distinctIds) (Lake.erase m duck projectId distinctIds now) w _ := erase_runs rfl
    exact h.bind fun _ _ _ _ => .pure trivial
  | sweepGraveyard held => exact sweepGraveyard_runs.bind fun _ _ _ _ => .pure trivial
  | updateTables f => exact (updateTables_runs fun _ tables _ => ⟨tables, rfl⟩).mono fun _ _ _ => trivial

/-- What stays when the process ends: the database, the count of its transactions, and the rows. -/
structure World.Same (w w' : World ν U) : Prop where
  db : w.db = w'.db
  commits : w.commits = w'.commits
  rows : w.rows = w'.rows

omit [DecidableEq U] in
theorem World.Remains.same (h : w.Remains w') : w.Same w' := by
  refine ⟨h.db, h.commits, World.rows_congr (by rw [h.db]) fun file _ => ?_⟩
  rw [World.content, World.content, h.disk]

omit [DecidableEq U] in
theorem World.same_forget (w : World ν U) : w.forget.Same w := ⟨rfl, rfl, rfl⟩

omit [DecidableEq U] in
theorem World.Same.trans {u : World ν U} (h : w.Same w') (h' : w'.Same u) : w.Same u :=
  ⟨h.db.trans h'.db, h.commits.trans h'.commits, h.rows.trans h'.rows⟩

/-- A call ends after a run of its commits, however it ends. -/
theorem Process.Step.call_traced {c : Call ν U} {s' : Process ν U} (hw : w.Running) (h : Step K duck (.call m c) (.up w) s') :
    ∃ commits v, (∀ c' ∈ commits, c.Commits w c') ∧ Traced K duck commits w v ∧ s'.world.Same v := by
  have hends : Ends (c.steps K duck m) w (fun _ w' => Changes K duck (c.Commits w) w w' ∧ True) (Left K duck (c.Commits w) w) :=
    c.runs_commits m w hw
  have hleft : ∀ {e w'}, Left K duck (c.Commits w) w e w' →
      ∃ commits v, (∀ c' ∈ commits, c.Commits w c') ∧ Traced K duck commits w v ∧ w'.Same v := by
    rintro e w' ⟨v, hc, hr, -⟩
    obtain ⟨commits, hok, htraced⟩ := hc.traced
    exact ⟨commits, v, hok, htraced, hr.same⟩
  cases h with
  | returned h =>
    obtain ⟨commits, hok, htraced⟩ := (hends.ok h).1.traced
    exact ⟨commits, _, hok, htraced, ⟨rfl, rfl, rfl⟩⟩
  | failed h => exact hleft (hends.error h)
  | crashed h =>
    obtain ⟨commits, v, hok, htraced, hsame⟩ := hleft (hends.error h)
    exact ⟨commits, v, hok, htraced, (World.same_forget _).trans hsame⟩

omit [DecidableEq U] in
private theorem World.Sound.same_cut {disk : Table Path (Content ν U)} (hw : w.Sound)
    (h : ∀ p, disk.get p = w.disk.get p ∨ disk.get p = w.stored p) :
    World.Same { w.forget with disk, stored := disk.get } w := by
  refine ⟨rfl, rfl, World.rows_congr rfl fun file hf => congrArg (Option.getD · []) ?_⟩
  obtain ⟨content, hd, hs⟩ := hw.there file hf
  rcases h file.path with he | he
  · exact he
  · exact he.trans (hs.trans hd.symm)

/-- Without commits nothing of it changes. -/
private theorem Changes.same (hw : w.Sound) (h : Changes K duck (fun _ => False) w w') :
    w'.commits = w.commits ∧ w'.db.state = w.db.state ∧ w'.rows = w.rows := by
  induction h with
  | refl => exact ⟨rfl, rfl, rfl⟩
  | tail h hc ih =>
    obtain ⟨c, hok, hc⟩ := hc
    cases c with
    | some c => exact (hok c rfl).elim
    | none =>
      obtain ⟨hcommits, hstate, hrows⟩ := ih
      refine ⟨?_, ?_, (hc.rows_quiet (Changes.sound hw h)).trans hrows⟩ <;> cases hc <;> assumption

/-- A publication commits nothing, or the window that it read. -/
theorem Process.Step.publish_moves {read : Wal.WalCursor → Except Wal.WalError (List (CapturedBatch ν U) × Wal.WalCursor)}
    {reclaim : Wal.WalCursor → Except Wal.WalError Unit} {now : Int} {s' : Process ν U} (hw : w.Running)
    (h : Step K duck (.call m (.publishWindow read reclaim now)) (.up w) s') :
    (s'.world.commits = w.commits ∧ s'.world.db.state.checkpoint = w.db.state.checkpoint ∧
      (bookkeeping ν U).Moves [] w.rows s'.world.rows) ∨
    ∃ records next, read w.db.state.checkpoint = .ok (records, next) ∧ records ≠ [] ∧ s'.world.commits = w.commits + 1 ∧
      s'.world.db.state.checkpoint = next ∧ (bookkeeping ν U).Moves [.published records] w.rows s'.world.rows := by
  obtain ⟨commits, v, hok, htraced, hsame⟩ := Step.call_traced hw h
  have hle : s'.world.commits ≤ w.commits + 1 := by
    have hends : Ends ((Call.publishWindow read reclaim now).steps K duck m) w (fun _ w' => w'.commits ≤ w.commits + 1)
        fun _ w' => w'.commits ≤ w.commits + 1 :=
      Ends.bind ((publishWindow_commits hw.db).mono (fun _ _ h => Ends.pure h) fun _ _ h => h)
    cases h with
    | returned h => exact hends.ok h
    | failed h => exact hends.error h
    | crashed h =>
      have hcrashed := hends.error h
      exact hcrashed
  have hall : commits.countP Commit.counts = commits.length := by
    refine List.countP_eq_length.mpr fun c hc => ?_
    obtain ⟨records, next, -, -, rfl⟩ := hok c hc
    rfl
  have hcounted := htraced.counted
  rw [hall, ← hsame.commits] at hcounted
  obtain ⟨made, hmade, hmoves⟩ := htraced.moves hw
  have hcheckpoint := htraced.checkpoint
  rw [hsame.db, hsame.rows]
  rcases commits with _ | ⟨c, _ | ⟨c', commits⟩⟩
  · obtain rfl := List.forall₂_nil_left_iff.mp hmade
    exact .inl ⟨hcounted, hcheckpoint, hmoves⟩
  · obtain ⟨records, next, hread, hne, rfl⟩ := hok c (by simp)
    obtain ⟨entered, rest, hentered, hrest, rfl⟩ := List.forall₂_cons_left_iff.mp hmade
    obtain rfl := List.forall₂_nil_left_iff.mp hrest
    obtain rfl : entered = [.published records] := hentered
    exact .inr ⟨records, next, hread, hne, hcounted, hcheckpoint, hmoves⟩
  · simp only [List.length_cons] at hcounted
    omega

/-- The entries that a call may make. -/
def Call.Enters : Call ν U → List (Entry ν U) → Prop
  | .publishWindow read _ _, made => made = [] ∨ ∃ c records next, read c = .ok (records, next) ∧ made = [.published records]
  | .compactStep retentionDays today _, made => ∀ e ∈ made, ∃ days : Nat, retentionDays = some days ∧ e = .expired (today - days)
  | .erase projectId distinctIds _, made => ∀ e ∈ made, ∃ day, e = .erased projectId day distinctIds
  | .sweepGraveyard _, made => made = []
  | .updateTables _, made => made = []

def Action.Enters : Action ν U → List (Entry ν U) → Prop
  | .call _ c, made => c.Enters made
  | .cut _, made => made = []
  | .openLake _, made => made = []

omit [DecidableEq U] in
private theorem forall₂_entered {P : Commit ν U → Prop} {Q : Entry ν U → Prop} {commits : List (Commit ν U)} {made : List (List (Entry ν U))}
    (h : List.Forall₂ Commit.Enters commits made) (hok : ∀ c ∈ commits, P c) (hP : ∀ c entered, P c → c.Enters entered → ∀ e ∈ entered, Q e) :
    ∀ e ∈ made.flatten, Q e := by
  induction h with
  | nil => simp
  | cons henters _ ih =>
    rw [List.forall_mem_cons] at hok
    rw [List.flatten_cons]
    exact List.forall_mem_append.mpr ⟨hP _ _ hok.1 henters, ih hok.2⟩

omit [DecidableEq U] in
private theorem foldl_moves {commits : List (Commit ν U)} (h : ∀ c ∈ commits, ∀ cursor, Commit.moves cursor c = cursor)
    (cursor : Wal.WalCursor) : commits.foldl Commit.moves cursor = cursor := by
  induction commits with
  | nil => rfl
  | cons c commits ih =>
    rw [List.foldl_cons, h c (by simp)]
    exact ih fun c' hc' => h c' (List.mem_cons_of_mem _ hc')

/-- A call that is not a publication leaves the checkpoint where it is. -/
theorem Process.Step.call_moves {c : Call ν U} {s' : Process ν U} (hw : w.Running) (h : Step K duck (.call m c) (.up w) s')
    (hc : ∀ read reclaim now, c ≠ .publishWindow read reclaim now) : s'.world.db.state.checkpoint = w.db.state.checkpoint ∧
      ∃ made, c.Enters made ∧ (bookkeeping ν U).Moves made w.rows s'.world.rows := by
  obtain ⟨commits, v, hok, htraced, hsame⟩ := Step.call_traced hw h
  obtain ⟨made, hmade, hmoves⟩ := htraced.moves hw
  have hcheckpoint : v.db.state.checkpoint = w.db.state.checkpoint := by
    rw [htraced.checkpoint]
    refine foldl_moves (fun c' hc' cursor => ?_) _
    have hcommit := hok c' hc'
    cases c with
    | publishWindow read reclaim now => exact absurd rfl (hc read reclaim now)
    | compactStep => rcases hcommit with rfl | ⟨days, -, rfl⟩ <;> rfl
    | erase =>
      obtain rfl := hcommit
      rfl
    | sweepGraveyard => exact hcommit.elim
    | updateTables =>
      obtain ⟨tables, rfl⟩ := hcommit
      rfl
  rw [hsame.db, hsame.rows]
  refine ⟨hcheckpoint, made.flatten, ?_, hmoves⟩
  cases c with
  | publishWindow read reclaim now => exact absurd rfl (hc read reclaim now)
  | compactStep retentionDays today now =>
    refine forall₂_entered hmade hok fun c entered hcommit henters e he => ?_
    rcases hcommit with rfl | ⟨days, hdays, rfl⟩
    · rw [show entered = [] from henters] at he
      cases he
    · rw [show entered = _ from henters, List.mem_singleton] at he
      exact ⟨days, hdays, he⟩
  | erase projectId distinctIds now =>
    refine forall₂_entered hmade hok fun c entered hcommit henters e he => ?_
    obtain rfl := hcommit
    obtain ⟨day, rfl⟩ := henters
    exact ⟨day, List.mem_singleton.mp he⟩
  | sweepGraveyard held =>
    refine List.eq_nil_iff_forall_not_mem.mpr (forall₂_entered hmade hok fun _ _ hcommit => hcommit.elim)
  | updateTables f =>
    refine List.eq_nil_iff_forall_not_mem.mpr (forall₂_entered hmade hok fun c entered hcommit henters e he => ?_)
    obtain ⟨tables, rfl⟩ := hcommit
    rw [show entered = [] from henters] at he
    cases he

/-- What is neither a call nor an entry: cuts and openings. -/
theorem Process.Step.idle_same {a : Action ν U} {s s' : Process ν U} (hs : s.Kept) (h : Step K duck a s s')
    (ha : ∀ m c, a ≠ .call m c) : s'.world.commits = s.world.commits ∧ s'.world.db.state = s.world.db.state ∧
      s'.world.rows = s.world.rows := by
  cases h with
  | returned | failed | crashed => exact absurd rfl (ha _ _)
  | cut h =>
    have hsame := World.Sound.same_cut ?_ h
    · exact ⟨hsame.commits, congrArg Database.state hsame.db, hsame.rows⟩
    · cases s with
      | up w => exact World.Running.toSound hs
      | down w => exact hs.1
  | @opened m w w' h =>
    obtain ⟨v, hc, hr⟩ := ((@openLake_ends _ _ _ m K duck _ hs.1 hs.2).ok h).2
    obtain ⟨hcommits, hstate, hrows⟩ := hc.same hs.1
    exact ⟨hr.same.commits.trans hcommits, (congrArg Database.state hr.same.db).trans hstate, hr.same.rows.trans hrows⟩
  | @unopened m w w' e h =>
    have hsame := Changes.same hs.1 ((@openLake_ends _ _ _ m K duck _ hs.1 hs.2).error h)
    exact hsame

/-- Every step of the process is a run of the entries it may make. -/
theorem Process.Step.moves {a : Action ν U} {s s' : Process ν U} (hs : s.Kept) (h : Step K duck a s s') :
    ∃ made, a.Enters made ∧ (bookkeeping ν U).Moves made s.world.rows s'.world.rows := by
  have hidle : (∀ m c, a ≠ .call m c) → (bookkeeping ν U).Moves [] s.world.rows s'.world.rows := fun ha =>
    (h.idle_same hs ha).2.2 ▸ .refl
  cases a with
  | cut disk => exact ⟨[], rfl, hidle (by simp)⟩
  | openLake m => exact ⟨[], rfl, hidle (by simp)⟩
  | call m c =>
    obtain ⟨w, rfl⟩ : ∃ w, s = .up w := by cases h <;> exact ⟨_, rfl⟩
    cases c with
    | publishWindow read reclaim now =>
      rcases h.publish_moves hs with ⟨-, -, hmoves⟩ | ⟨records, next, hread, -, -, -, hmoves⟩
      · exact ⟨[], .inl rfl, hmoves⟩
      · exact ⟨_, .inr ⟨_, records, next, hread, rfl⟩, hmoves⟩
    | _ => exact (h.call_moves hs (by simp)).2

omit [DecidableEq U] in
theorem rows_initial : (World.initial : World ν U).rows = ∅ := by
  refine Set.eq_empty_iff_forall_notMem.mpr ?_
  rintro r ⟨file, hf, -⟩
  obtain ⟨row, hrow, -⟩ := World.sound_initial.db.mem_liveFiles.mp hf
  cases hrow

/-- The entries of a whole run, action by action. -/
theorem Process.run_moves {actions : List (Action ν U)} {s₀ s : Process ν U} (hs : s₀.Kept)
    (h : System.Run s₀ (Step K duck) System.anyStep actions s) : s.Kept ∧
      ∃ made, List.Forall₂ Action.Enters actions made ∧ (bookkeeping ν U).Moves made.flatten s₀.world.rows s.world.rows := by
  induction h with
  | start => exact ⟨hs, [], .nil, .refl⟩
  | step _ _ hstep ih =>
    obtain ⟨hkept, made, hmade, hmoves⟩ := ih
    obtain ⟨entered, henters, hmoves'⟩ := hstep.moves hkept
    refine ⟨kept_step hkept hstep, made ++ [entered], List.rel_append hmade (.cons henters .nil), ?_⟩
    rw [List.flatten_append, List.flatten_singleton]
    exact hmoves.trans hmoves'

omit [DecidableEq U] in
/-- An entry of a run that adds a row is the publication of a window with it. -/
private theorem added_published {actions : List (Action ν U)} {made : List (List (Entry ν U))} (h : List.Forall₂ Action.Enters actions made)
    {e : Entry ν U} (he : e ∈ made.flatten) {records : List (CapturedBatch ν U)} (heq : e = .published records) :
    ∃ m read reclaim now c next, .call m (.publishWindow read reclaim now) ∈ actions ∧ read c = .ok (records, next) := by
  induction h with
  | nil => cases he
  | @cons a entered actions made henters _ ih =>
    rw [List.flatten_cons, List.mem_append] at he
    rcases he with he | he
    · subst heq
      cases a with
      | cut | openLake => exact absurd (henters ▸ he) List.not_mem_nil
      | call m c =>
        cases c with
        | publishWindow read reclaim now =>
          rcases henters with rfl | ⟨c, records', next, hread, rfl⟩
          · cases he
          · cases List.mem_singleton.mp he
            exact ⟨m, read, reclaim, now, c, next, by simp, hread⟩
        | compactStep =>
          obtain ⟨days, -, heq⟩ := henters _ he
          cases heq
        | erase =>
          obtain ⟨day, heq⟩ := henters _ he
          cases heq
        | sweepGraveyard | updateTables => exact absurd (henters ▸ he) List.not_mem_nil
    · obtain ⟨m, read, reclaim, now, c, next, hmem, hread⟩ := ih he
      exact ⟨m, read, reclaim, now, c, next, List.mem_cons_of_mem _ hmem, hread⟩

/-- Once an erasure has returned, an event of its project and distinct ids is stored only when a publication
after it has put it in. -/
theorem Process.erased_until_published {actions later : List (Action ν U)} {s : Process ν U} {projectId : String} {distinctIds : List String}
    {now : Int} (h : System.Run (.down World.initial) (Step K duck) System.anyStep actions (.up w))
    (herase : (Call.erase projectId distinctIds now).steps K duck m w = .ok () w') (hlater : System.Run (.up w') (Step K duck) System.anyStep later s) :
    ∀ r ∈ s.world.rows, r.projectId = projectId → r.event.distinctId ∈ distinctIds →
      ∃ m read reclaim now c records next, .call m (.publishWindow read reclaim now) ∈ later ∧ read c = .ok (records, next) ∧
        (projectId, r.event) ∈ windowEvents records := by
  have hw : w.Running := kept h.reached
  have hw' : w'.Running := kept_step (s := .up w) hw (.returned herase)
  have herased : ∀ day, w'.Erased projectId day distinctIds := by
    have hends : Ends ((Call.erase projectId distinctIds now).steps K duck m) w (fun _ w' => ∀ day, w'.Erased projectId day distinctIds)
        fun _ _ => True := by
      have hruns : Runs K duck (fun _ => True) (Lake.erase m duck projectId distinctIds now) w
          fun _ w' => ∀ day, w'.Erased projectId day distinctIds := erase_runs trivial
      exact Ends.bind ((hruns hw).mono (fun _ _ h => Ends.pure h.2) fun _ _ _ => trivial)
    exact hends.ok herase
  have hup : (Process.up w').Kept := hw'
  obtain ⟨-, made, hmade, hmoves⟩ := run_moves hup hlater
  intro r hr hproject hid
  rcases hmoves.subset hr with ⟨file, hf, hp, hd, he⟩ | ⟨e, he, hadds⟩
  · exact absurd hid (herased r.day file (hw'.mem_files.mpr ⟨hf, hp.trans hproject, hd⟩) r.event he)
  · cases e with
    | published records =>
      obtain ⟨m, read, reclaim, now, c, next, hmem, hread⟩ := added_published hmade he rfl
      exact ⟨m, read, reclaim, now, c, records, next, hmem, hread, hproject ▸ hadds.1⟩
    | expired | erased => exact hadds.elim

end calls

/-- The erasure of the one published event's person. -/
def sampleErasure : Call Int Small.Uuid := .erase "p" [linkEvent.distinctId] 0

private theorem sample_run : ∃ w w', System.Run (.down World.initial) (Process.Step Crates.small .plain) System.anyStep
      [.openLake .reliable, .call .reliable samplePublication] (.up w) ∧ w.db.liveFiles.map LakeFile.rows = [1] ∧
    sampleErasure.steps Crates.small .plain .reliable w = .ok () w' := by
  have h : (openLake .reliable).returns World.initial (fun w => (samplePublication.steps Crates.small .plain .reliable).returns w
      fun w => w.db.liveFiles.map LakeFile.rows = [1] ∧ (sampleErasure.steps Crates.small .plain .reliable).returns w fun _ => true) = true := by
    decide +kernel
  obtain ⟨w₁, h₁, h⟩ := Steps.of_returns h
  obtain ⟨w₂, h₂, h⟩ := Steps.of_returns h
  obtain ⟨hrows, h⟩ := of_decide_eq_true h
  obtain ⟨w₃, h₃, -⟩ := Steps.of_returns h
  exact ⟨w₂, w₃, .step (.step .start trivial (.opened h₁)) trivial (.returned h₂), hrows, h₃⟩

theorem sample_erased : ∃ w w' : World Int Small.Uuid, w.db.liveFiles.map LakeFile.rows = [1] ∧
    sampleErasure.steps Crates.small .plain .reliable w = .ok () w' ∧
      ∀ r ∈ w'.rows, r.projectId = "p" → r.event.distinctId ≠ linkEvent.distinctId := by
  obtain ⟨w, w', hrun, hrows, herase⟩ := sample_run
  refine ⟨w, w', hrows, herase, fun r hr hproject hid => ?_⟩
  obtain ⟨_, _, _, _, _, _, _, hmem, -⟩ := Process.erased_until_published hrun herase .start r hr hproject (by simp [hid])
  cases hmem

end Hoglet.Lake
