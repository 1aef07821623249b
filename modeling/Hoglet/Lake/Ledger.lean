import Hoglet.Lake.Process
import Hoglet.Ledgers

/-! What the lake holds: the events that committed windows have put in, less those that expired or were
erased since, one for each project, day and uuid. -/
namespace Hoglet.Lake
open Capture Projections

/-- An event in a partition. -/
structure StoredRow (ν U : Type) where
  projectId : String
  day : NaiveDate
  event : CapturedEvent ν U

def StoredRow.key {ν U : Type} (r : StoredRow ν U) : String × NaiveDate × U := (r.projectId, r.day, r.event.uuid)

/-- A committed change of what is stored. -/
inductive Entry (ν U : Type) where
  | published (records : List (CapturedBatch ν U))
  | expired (cutoff : NaiveDate)
  | erased (projectId : String) (day : NaiveDate) (distinctIds : List String)

section bookkeeping
variable {ν U : Type}

/-- The rows of the live files. -/
def World.rows (w : World ν U) : Set (StoredRow ν U) :=
  {r | ∃ file ∈ w.db.liveFiles, file.projectId = r.projectId ∧ file.day = r.day ∧ r.event ∈ w.content file}

variable [DecidableEq U]

/-- The events of a window without those that repeat a uuid of their project. -/
def firstEvents : List (String × CapturedEvent ν U) → List (String × U) → List (String × CapturedEvent ν U)
  | [], _ => []
  | m :: rest, seen =>
    if seen.contains (m.1, m.2.uuid) then firstEvents rest seen else m :: firstEvents rest ((m.1, m.2.uuid) :: seen)

def recordEvents (batch : CapturedBatch ν U) : List (String × CapturedEvent ν U) :=
  ((projectIds batch).getD []).zip batch.events

def windowEvents (records : List (CapturedBatch ν U)) : List (String × CapturedEvent ν U) :=
  firstEvents (records.flatMap recordEvents) []

def Entry.drops : Entry ν U → Set (StoredRow ν U)
  | .published _ => ∅
  | .expired cutoff => {r | r.day < cutoff}
  | .erased projectId day distinctIds => {r | r.projectId = projectId ∧ r.day = day ∧ r.event.distinctId ∈ distinctIds}

def Entry.adds : Entry ν U → Set (StoredRow ν U)
  | .published records => {r | (r.projectId, r.event) ∈ windowEvents records ∧ r.day = eventDay r.event}
  | _ => ∅

def bookkeeping (ν U : Type) [DecidableEq U] : Bookkeeping (Entry ν U) (StoredRow ν U) (String × NaiveDate × U) :=
  ⟨Entry.drops, Entry.adds, StoredRow.key⟩

end bookkeeping

section windows
variable {ν U : Type} [DecidableEq U] {K : Crates ν U}

private theorem publishEvents_kept (events : List (String × CapturedEvent ν U)) (seen : List (String × U)) (tables : Tables) :
    Ends (publishEvents K events seen) tables
      (fun r _ => ∀ rest, firstEvents (events ++ rest) seen = r.1 ++ firstEvents rest r.2) fun _ _ => True := by
  induction events generalizing seen tables with
  | nil => exact Ends.pure fun _ => rfl
  | cons m events ih =>
    obtain ⟨projectId, e⟩ := m
    rw [publishEvents]
    by_cases hseen : (projectId, e.uuid) ∈ seen
    · rw [if_pos hseen]
      refine (ih seen tables).mono (fun r _ hr rest => ?_) fun _ _ h => h
      rw [List.cons_append, firstEvents, if_pos (List.contains_iff_mem.mpr hseen), hr]
    · rw [if_neg hseen]
      refine Ends.bind (Ends.get ?_)
      have hrest : ∀ tables', Ends (publishEvents K events ((projectId, e.uuid) :: seen) >>= fun r => pure ((projectId, e) :: r.1, r.2)) tables'
          (fun r _ => ∀ rest, firstEvents ((projectId, e) :: events ++ rest) seen = r.1 ++ firstEvents rest r.2)
          fun _ _ => True := fun tables' => by
        refine Ends.bind ((ih ((projectId, e.uuid) :: seen) tables').mono (fun r _ hr => Ends.pure fun rest => ?_) fun _ _ h => h)
        rw [List.cons_append, firstEvents, if_neg fun h => hseen (List.contains_iff_mem.mp h), hr, List.cons_append]
      cases applyIdentityEffects K projectId e tables with
      | ok _ tables' => exact hrest tables'
      | error _ _ => exact trivial

private theorem publishRecords_kept (records : List (CapturedBatch ν U)) (seen : List (String × U)) (tables : Tables) :
    Ends (publishRecords K records seen) tables
      (fun kept _ => kept = firstEvents (records.flatMap recordEvents) seen) fun _ _ => True := by
  induction records generalizing seen tables with
  | nil => exact Ends.pure rfl
  | cons batch records ih =>
    rw [publishRecords]
    cases hids : projectIds batch with
    | none => exact trivial
    | some ids =>
      refine Ends.bind ((publishEvents_kept (ids.zip batch.events) seen tables).mono (fun r _ hr => ?_) fun _ _ h => h)
      refine Ends.bind ((ih r.2 _).mono (fun kept _ hkept => Ends.pure ?_) fun _ _ h => h)
      rw [List.flatMap_cons, recordEvents, hids, Option.getD_some, hr, hkept]

theorem publishRecords_windowEvents {records : List (CapturedBatch ν U)} {kept : List (String × CapturedEvent ν U)}
    {tables tables' : Tables} (h : publishRecords K records [] tables = .ok kept tables') : kept = windowEvents records :=
  (publishRecords_kept records [] tables).ok h

theorem firstEvents_subset (events : List (String × CapturedEvent ν U)) (seen : List (String × U)) : firstEvents events seen ⊆ events := by
  induction events generalizing seen with
  | nil => exact List.Subset.refl _
  | cons m events ih =>
    rw [firstEvents]
    split
    · exact List.Subset.trans (ih seen) (List.subset_cons_self _ _)
    · exact List.cons_subset_cons _ (ih _)

/-- Of every event not seen before one with its project and uuid stays. -/
theorem firstEvents_covers (events : List (String × CapturedEvent ν U)) (seen : List (String × U)) : ∀ m ∈ events,
    (m.1, m.2.uuid) ∈ seen ∨ ∃ m' ∈ firstEvents events seen, m'.1 = m.1 ∧ m'.2.uuid = m.2.uuid := by
  induction events generalizing seen with
  | nil => simp
  | cons m events ih =>
    intro m' hm'
    rw [firstEvents]
    split
    · rename_i hseen
      rcases List.mem_cons.mp hm' with rfl | hm'
      · exact .inl (List.contains_iff_mem.mp hseen)
      · exact ih seen m' hm'
    · rcases List.mem_cons.mp hm' with rfl | hm'
      · exact .inr ⟨_, by simp, rfl, rfl⟩
      · rcases ih ((m.1, m.2.uuid) :: seen) m' hm' with hseen | ⟨n, hn, hproject, huuid⟩
        · rcases List.mem_cons.mp hseen with heq | hseen
          · obtain ⟨hproject, huuid⟩ := Prod.mk.inj heq
            exact .inr ⟨m, by simp, hproject.symm, huuid.symm⟩
          · exact .inl hseen
        · exact .inr ⟨n, List.mem_cons_of_mem _ hn, hproject, huuid⟩

omit [DecidableEq U] in
theorem mem_partitionsOf {kept : List (String × CapturedEvent ν U)} (key : String × NaiveDate) {e : CapturedEvent ν U} :
    (∃ part ∈ partitionsOf kept, part.1 = key ∧ e ∈ part.2) ↔ (key.1, e) ∈ kept ∧ eventDay e = key.2 := by
  have hcontent : ∀ k, e ∈ ((kept.filter fun m => partitionKey m = k).map Prod.snd).mergeSort
      (fun a b => a.event < b.event ∨ a.event = b.event ∧ a.timestamp.ns ≤ b.timestamp.ns) ↔
      (k.1, e) ∈ kept ∧ eventDay e = k.2 := by
    intro k
    rw [List.mem_mergeSort, List.mem_map]
    constructor
    · rintro ⟨m, hm, rfl⟩
      obtain ⟨hkept, hk⟩ := List.mem_filter.mp hm
      obtain rfl := of_decide_eq_true hk
      exact ⟨hkept, rfl⟩
    · rintro ⟨hm, hday⟩
      exact ⟨(k.1, e), List.mem_filter.mpr ⟨hm, decide_eq_true (Prod.ext rfl hday)⟩, rfl⟩
  rw [partitionsOf]
  constructor
  · rintro ⟨part, hpart, rfl, he⟩
    obtain ⟨k, -, rfl⟩ := List.mem_map.mp hpart
    exact (hcontent k).mp he
  · intro h
    refine ⟨_, List.mem_map_of_mem ?_, rfl, (hcontent key).mpr h⟩
    rw [List.mem_mergeSort, List.mem_dedup]
    exact List.mem_map.mpr ⟨(key.1, e), h.1, Prod.ext rfl h.2⟩

end windows

section changes
variable {ν U : Type} [DecidableEq U] {K : Crates ν U} {duck : Duck ν U} {w w' : World ν U}

/-- The entry that a commit makes. -/
def Commit.Enters : Commit ν U → List (Entry ν U) → Prop
  | .published records _, made => made = [.published records]
  | .expired cutoff, made => made = [.expired cutoff]
  | .erased projectId distinctIds, made => ∃ day, made = [.erased projectId day distinctIds]
  | .merged, made => made = []
  | .recorded _, made => made = []

omit [DecidableEq U] in
theorem World.rows_congr (hlive : w'.db.liveFiles = w.db.liveFiles)
    (hcontent : ∀ file ∈ w.db.liveFiles, w'.content file = w.content file) : w'.rows = w.rows := by
  ext r
  constructor
  · rintro ⟨file, hf, hp, hd, he⟩
    rw [hlive] at hf
    exact ⟨file, hf, hp, hd, hcontent file hf ▸ he⟩
  · rintro ⟨file, hf, hp, hd, he⟩
    exact ⟨file, hlive ▸ hf, hp, hd, (hcontent file hf).symm ▸ he⟩

/-- A change that commits nothing. -/
theorem Change.rows_quiet (hw : w.Sound) (h : Change K duck w none w') : w'.rows = w.rows := by
  cases h with
  | quiet h => exact World.rows_congr rfl fun file hf => congrArg (Option.getD · []) (h file hf).1
  | unburied => exact World.rows_congr rfl fun _ _ => rfl
  | purged h => exact World.rows_congr (hw.db.purge h).2 fun _ _ => rfl

/-- A row of the lake after a commit lies in a live file that stayed or in a new one. -/
theorem World.Commits.mem_rows {c : Commit ν U} {tx : Database} {added : List LakeFile} {retired : List Nat}
    (h : w.Commits K duck c tx added retired) {r : StoredRow ν U} : r ∈ (w.install tx added retired).rows ↔
      ∃ file, (file ∈ w.db.liveFiles ∧ file.id ∉ retired ∨ file ∈ added) ∧ file.projectId = r.projectId ∧ file.day = r.day ∧
        r.event ∈ w.content file := by
  have hlive : (w.install tx added retired).db.liveFiles = w.db.liveFiles.filter (·.id ∉ retired) ++ added := h.live
  refine exists_congr fun file => ?_
  rw [hlive, List.mem_append, List.mem_filter, decide_eq_true_iff]
  exact Iff.rfl

omit [DecidableEq U] in
private theorem exists_forall₂ {α β : Type} {R : α → β → Prop} {P : α → Prop} {Q : β → Prop} {l : List α} {l' : List β}
    (h : List.Forall₂ R l l') (hR : ∀ a b, R a b → (P a ↔ Q b)) : (∃ a ∈ l, P a) ↔ ∃ b ∈ l', Q b := by
  induction h with
  | nil => simp
  | cons hab _ ih => rw [List.exists_mem_cons_iff, List.exists_mem_cons_iff, hR _ _ hab, ih]

private theorem rows_published {records : List (CapturedBatch ν U)} {next : Wal.WalCursor} {kept : List (String × CapturedEvent ν U)}
    {tx : Database} {added : List LakeFile} (h : w.Commits K duck (.published records next) tx added [])
    (hkept : kept = windowEvents records) (hfiles : List.Forall₂ (fun file part => (file.projectId, file.day) = part.1 ∧
      w.disk.get file.path = some part.2) added (partitionsOf kept)) :
    (w.install tx added []).rows = w.rows \ (bookkeeping ν U).drops (.published records) ∪ (bookkeeping ν U).adds (.published records) := by
  have hnew : ∀ r : StoredRow ν U, (∃ file ∈ added, file.projectId = r.projectId ∧ file.day = r.day ∧ r.event ∈ w.content file) ↔
      (r.projectId, r.event) ∈ windowEvents records ∧ r.day = eventDay r.event := by
    intro r
    rw [← hkept, @eq_comm _ r.day]
    refine (exists_forall₂ hfiles fun file part hpart => ?_).trans (mem_partitionsOf (r.projectId, r.day))
    rw [World.content, hpart.2, Option.getD_some, ← hpart.1, Prod.mk.injEq, and_assoc]
  ext r
  rw [h.mem_rows]
  change _ ↔ r ∈ w.rows \ ∅ ∨ (r.projectId, r.event) ∈ windowEvents records ∧ r.day = eventDay r.event
  rw [Set.sdiff_empty, ← hnew]
  constructor
  · rintro ⟨file, ⟨hf, -⟩ | hf, hr⟩
    · exact .inl ⟨file, hf, hr⟩
    · exact .inr ⟨file, hf, hr⟩
  · rintro (⟨file, hf, hr⟩ | ⟨file, hf, hr⟩)
    · exact ⟨file, .inl ⟨hf, by simp⟩, hr⟩
    · exact ⟨file, .inr hf, hr⟩

omit [DecidableEq U] in
/-- A live file is among some others when its id is. -/
private theorem mem_of_id (hw : w.Running) {files : List LakeFile} (hfiles : ∀ file ∈ files, file ∈ w.db.liveFiles) {file : LakeFile}
    (hf : file ∈ w.db.liveFiles) (hid : file.id ∈ files.map LakeFile.id) : file ∈ files := by
  obtain ⟨file', hf', heq⟩ := List.mem_map.mp hid
  exact World.Running.eq_of_id hw.db (hfiles file' hf') hf heq ▸ hf'

private theorem rows_merged {inputs : List LakeFile} {file : LakeFile} {tx : Database} (hw : w.Running)
    (h : w.Commits K duck .merged tx [file] (inputs.map LakeFile.id)) (hinputs : inputs ⊆ w.snapshot.files file.projectId file.day)
    (hrows : w.disk.get file.path = some (duck.distinct (inputs.flatMap w.content))) :
    Thins (bookkeeping ν U).key w.rows (w.install tx [file] (inputs.map LakeFile.id)).rows := by
  have hcontent : w.content file = duck.distinct (inputs.flatMap w.content) := by rw [World.content, hrows, Option.getD_some]
  constructor
  · intro r hr
    obtain ⟨f, ⟨hf, -⟩ | hf, hp, hd, he⟩ := h.mem_rows.mp hr
    · exact ⟨f, hf, hp, hd, he⟩
    · obtain rfl := List.mem_singleton.mp hf
      rw [hcontent] at he
      obtain ⟨input, hinput, hin⟩ := List.mem_flatMap.mp (duck.mem _ _ he)
      obtain ⟨hlive, hp', hd'⟩ := hw.mem_files.mp (hinputs hinput)
      exact ⟨input, hlive, hp'.trans hp, hd'.trans hd, hin⟩
  · rintro r ⟨f, hf, hp, hd, he⟩
    by_cases hretired : f.id ∈ inputs.map LakeFile.id
    · have hin := mem_of_id hw (fun f hf => (hw.mem_files.mp (hinputs hf)).1) hf hretired
      obtain ⟨-, hp', hd'⟩ := hw.mem_files.mp (hinputs hin)
      obtain ⟨e, hkept, huuid⟩ := duck.covers (inputs.flatMap w.content) r.event (List.mem_flatMap.mpr ⟨f, hin, he⟩)
      refine ⟨⟨r.projectId, r.day, e⟩, h.mem_rows.mpr ⟨file, .inr (by simp), hp'.symm.trans hp, hd'.symm.trans hd, hcontent ▸ hkept⟩, ?_⟩
      exact congrArg (fun u => (r.projectId, r.day, u)) huuid
    · exact ⟨r, h.mem_rows.mpr ⟨f, .inl ⟨hf, hretired⟩, hp, hd, he⟩, rfl⟩

private theorem rows_expired {cutoff : NaiveDate} {retired : List Nat} {tx : Database} (h : w.Commits K duck (.expired cutoff) tx [] retired)
    (hretired : ∀ file ∈ w.db.liveFiles, file.id ∈ retired ↔ file.day < cutoff) : (w.install tx [] retired).rows =
      w.rows \ (bookkeeping ν U).drops (.expired cutoff) ∪ (bookkeeping ν U).adds (.expired cutoff) := by
  ext r
  rw [h.mem_rows]
  change _ ↔ r ∈ w.rows \ {r | r.day < cutoff} ∪ ∅
  rw [Set.union_empty]
  constructor
  · rintro ⟨file, ⟨hf, hid⟩ | hf, hp, hd, he⟩
    · exact ⟨⟨file, hf, hp, hd, he⟩, fun hlt => hid ((hretired file hf).mpr (hd ▸ hlt))⟩
    · cases hf
  · rintro ⟨⟨file, hf, hp, hd, he⟩, hlt⟩
    refine ⟨file, .inl ⟨hf, fun hid => hlt ?_⟩, hp, hd, he⟩
    change r.day < cutoff
    exact hd ▸ (hretired file hf).mp hid

private theorem rows_erased {projectId : String} {day : NaiveDate} {distinctIds : List String} {added : Option LakeFile} {tx : Database}
    (hw : w.Running)
    (hrows : ∀ rows, rows = ((w.snapshot.files projectId day).flatMap w.content).filter (·.distinctId ∉ distinctIds) →
      match added with
      | some file => file.projectId = projectId ∧ file.day = day ∧ w.disk.get file.path = some (duck.distinct rows)
      | none => rows = [])
    (h : w.Commits K duck (.erased projectId distinctIds) tx added.toList ((w.snapshot.files projectId day).map LakeFile.id)) :
    Thins (bookkeeping ν U).key (w.rows \ (bookkeeping ν U).drops (.erased projectId day distinctIds) ∪
      (bookkeeping ν U).adds (.erased projectId day distinctIds))
      (w.install tx added.toList ((w.snapshot.files projectId day).map LakeFile.id)).rows := by
  set left := ((w.snapshot.files projectId day).flatMap w.content).filter (·.distinctId ∉ distinctIds) with hleft
  have hrows := hrows left rfl
  have hmem : ∀ r : StoredRow ν U, r ∈ w.rows \ (bookkeeping ν U).drops (.erased projectId day distinctIds) ∪
      (bookkeeping ν U).adds (.erased projectId day distinctIds) ↔
      r ∈ w.rows ∧ ¬ (r.projectId = projectId ∧ r.day = day ∧ r.event.distinctId ∈ distinctIds) := fun r => by
    change r ∈ w.rows \ {r | r.projectId = projectId ∧ r.day = day ∧ r.event.distinctId ∈ distinctIds} ∪ ∅ ↔ _
    rw [Set.union_empty]
    exact Iff.rfl
  have hfiles : ∀ f ∈ w.snapshot.files projectId day, f ∈ w.db.liveFiles := fun f hf => (hw.mem_files.mp hf).1
  constructor
  · intro r hr
    rw [hmem]
    obtain ⟨f, ⟨hf, hid⟩ | hf, hp, hd, he⟩ := h.mem_rows.mp hr
    · refine ⟨⟨f, hf, hp, hd, he⟩, fun hdrop => hid (List.mem_map_of_mem ?_)⟩
      exact hw.mem_files.mpr ⟨hf, hp.trans hdrop.1, hd.trans hdrop.2.1⟩
    · obtain rfl := Option.mem_toList.mp hf
      obtain ⟨hp', hd', hdisk⟩ := hrows
      rw [World.content, hdisk, Option.getD_some] at he
      obtain ⟨hin, hnot⟩ := List.mem_filter.mp (duck.mem _ _ he)
      obtain ⟨input, hinput, hin⟩ := List.mem_flatMap.mp hin
      obtain ⟨hlive, hpi, hdi⟩ := hw.mem_files.mp hinput
      exact ⟨⟨input, hlive, hpi.trans (hp'.symm.trans hp), hdi.trans (hd'.symm.trans hd), hin⟩, fun hdrop => of_decide_eq_true hnot hdrop.2.2⟩
  · intro r hr
    obtain ⟨⟨f, hf, hp, hd, he⟩, hnot⟩ := (hmem r).mp hr
    by_cases hretired : f.id ∈ (w.snapshot.files projectId day).map LakeFile.id
    · have hin := mem_of_id hw hfiles hf hretired
      obtain ⟨-, hp', hd'⟩ := hw.mem_files.mp hin
      have hkept : r.event ∈ left := by
        refine List.mem_filter.mpr ⟨List.mem_flatMap.mpr ⟨f, hin, he⟩, decide_eq_true fun hid => hnot ⟨?_, ?_, hid⟩⟩
        · exact hp.symm.trans hp'
        · exact hd.symm.trans hd'
      cases added with
      | none =>
        rw [show left = [] from hrows] at hkept
        cases hkept
      | some file =>
        obtain ⟨hpf, hdf, hdisk⟩ := hrows
        obtain ⟨e, hdistinct, huuid⟩ := duck.covers left r.event hkept
        refine ⟨⟨r.projectId, r.day, e⟩, h.mem_rows.mpr ⟨file, .inr (by simp), ?_, ?_, ?_⟩, congrArg (fun u => (r.projectId, r.day, u)) huuid⟩
        · exact hpf.trans (hp'.symm.trans hp)
        · exact hdf.trans (hd'.symm.trans hd)
        · rwa [World.content, hdisk, Option.getD_some]
    · exact ⟨r, h.mem_rows.mpr ⟨f, .inl ⟨hf, hretired⟩, hp, hd, he⟩, rfl⟩

/-- A commit makes its entry. -/
theorem Change.moves {c : Commit ν U} (hw : w.Running) (h : Change K duck w (some c) w') :
    ∃ made, c.Enters made ∧ (bookkeeping ν U).Moves made w.rows w'.rows := by
  cases h with
  | recorded tables =>
    refine ⟨[], rfl, ?_⟩
    rw [show World.rows { w with db := { w.db with tables } } = w.rows from World.rows_congr rfl fun _ _ => rfl]
    exact .refl
  | @committed _ tx added retired h =>
    cases h.writes with
    | @published records kept _ hrun hfiles =>
      refine ⟨[.published records], rfl, ?_⟩
      rw [rows_published h (publishRecords_windowEvents hrun) hfiles]
      exact .single _
    | @merged inputs file hinputs hrows => exact ⟨[], rfl, .thin .refl (rows_merged hw h hinputs hrows)⟩
    | @expired cutoff _ hretired =>
      refine ⟨[.expired cutoff], rfl, ?_⟩
      rw [rows_expired h hretired]
      exact .single _
    | @erased projectId day distinctIds added hrows =>
      exact ⟨[.erased projectId day distinctIds], ⟨day, rfl⟩, .thin (.single _) (rows_erased hw hrows h)⟩

/-- A run of changes with its commits in order. -/
inductive Traced (K : Crates ν U) (duck : Duck ν U) : List (Commit ν U) → World ν U → World ν U → Prop
  | refl {w : World ν U} : Traced K duck [] w w
  | quiet {commits : List (Commit ν U)} {w v w' : World ν U} (h : Traced K duck commits w v) (hc : Change K duck v none w') :
      Traced K duck commits w w'
  | commit {commits : List (Commit ν U)} {c : Commit ν U} {w v w' : World ν U} (h : Traced K duck commits w v)
      (hc : Change K duck v (some c) w') : Traced K duck (commits ++ [c]) w w'

theorem Changes.traced {ok : Commit ν U → Prop} (h : Changes K duck ok w w') :
    ∃ commits, (∀ c ∈ commits, ok c) ∧ Traced K duck commits w w' := by
  induction h with
  | refl => exact ⟨[], by simp, .refl⟩
  | tail _ hc ih =>
    obtain ⟨commits, hok, htraced⟩ := ih
    obtain ⟨c, hc', hc⟩ := hc
    cases c with
    | none => exact ⟨commits, hok, .quiet htraced hc⟩
    | some c =>
      refine ⟨commits ++ [c], fun c' hmem => ?_, .commit htraced hc⟩
      rcases List.mem_append.mp hmem with hmem | hmem
      · exact hok c' hmem
      · exact hc' c' (congrArg some (List.mem_singleton.mp hmem).symm)

/-- Where a commit leaves the checkpoint. -/
def Commit.moves (c : Wal.WalCursor) : Commit ν U → Wal.WalCursor
  | .published _ next => next
  | _ => c

/-- Whether a commit counts as a catalogue transaction. -/
def Commit.counts : Commit ν U → Bool
  | .recorded _ => false
  | _ => true

namespace Traced
variable {commits : List (Commit ν U)}

theorem running (h : Traced K duck commits w w') (hw : w.Running) : w'.Running := by
  induction h with
  | refl => exact hw
  | quiet _ hc ih => exact hc.running (ih hw)
  | commit _ hc ih => exact hc.running (ih hw)

theorem checkpoint (h : Traced K duck commits w w') : w'.db.state.checkpoint = commits.foldl Commit.moves w.db.state.checkpoint := by
  induction h with
  | refl => rfl
  | quiet _ hc ih => cases hc <;> exact ih
  | commit _ hc ih =>
    rw [List.foldl_append, ← ih]
    cases hc with
    | recorded => rfl
    | committed h =>
      cases h.writes with
      | published => rfl
      | merged _ _ _ hcheckpoint => exact hcheckpoint
      | expired _ _ hcheckpoint => exact hcheckpoint
      | erased _ _ hcheckpoint => exact hcheckpoint

theorem counted (h : Traced K duck commits w w') : w'.commits = w.commits + commits.countP Commit.counts := by
  induction h with
  | refl => rfl
  | quiet _ hc ih => cases hc <;> exact ih
  | commit _ hc ih =>
    rw [List.countP_append, ← Nat.add_assoc, ← ih]
    cases hc with
    | recorded => rfl
    | committed h => cases h.writes <;> rfl

theorem moves (h : Traced K duck commits w w') (hw : w.Running) :
    ∃ made, List.Forall₂ Commit.Enters commits made ∧ (bookkeeping ν U).Moves made.flatten w.rows w'.rows := by
  induction h with
  | refl => exact ⟨[], .nil, .refl⟩
  | quiet h hc ih =>
    obtain ⟨made, hmade, hmoves⟩ := ih hw
    exact ⟨made, hmade, hc.rows_quiet (h.running hw).toSound ▸ hmoves⟩
  | commit h hc ih =>
    obtain ⟨made, hmade, hmoves⟩ := ih hw
    obtain ⟨entered, henters, hmoves'⟩ := hc.moves (h.running hw)
    refine ⟨made ++ [entered], List.rel_append hmade (.cons henters .nil), ?_⟩
    rw [List.flatten_append, List.flatten_singleton]
    exact hmoves.trans hmoves'

end Traced

end changes
end Hoglet.Lake
