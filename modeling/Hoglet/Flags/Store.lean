import Hoglet.Checks
import Hoglet.Table
import Mathlib.Data.List.Sort

/-! Feature flag definitions in `control.db`: one table, soft deletes, a version for every change. -/
namespace Hoglet.Flags

def maxFlagsPerProject : Nat := 2000

/-- What is wrong with a definition, and in which field. -/
structure Invalid where
  field : String
  message : String
  deriving DecidableEq, Repr

inductive FlagStoreError where
  | database
  | notFound
  | conflict
  | invalid (invalid : Invalid)
  | limitExceeded (message : String)
  | corrupt (message : String)
  deriving DecidableEq, Repr

structure FeatureFlagInput (φ : Type) where
  key : String
  name : String
  active : Bool
  filters : φ
  ensureExperienceContinuity : Bool

/-- `PATCH` body: absent fields keep their value. -/
structure FeatureFlagPatch (φ : Type) where
  key : Option String
  name : Option String
  active : Option Bool
  filters : Option φ
  ensureExperienceContinuity : Option Bool

structure FeatureFlag (φ : Type) where
  id : Nat
  key : String
  name : String
  active : Bool
  filters : φ
  ensureExperienceContinuity : Bool
  createdAt : String
  updatedAt : String
  deriving DecidableEq

structure FlagRow where
  projectId : String
  key : String
  name : String
  active : Bool
  filters : String
  ensureExperienceContinuity : Bool
  version : Nat
  deleted : Bool
  createdAt : String
  updatedAt : String

structure FlagDb where
  flags : Table Nat FlagRow
  projects : List String

/-- How filters are checked, stored as JSON and compiled for evaluation. -/
structure FlagCodec (φ γ : Type) where
  validateInput : FeatureFlagInput φ → Except Invalid Unit
  encodeFilters : φ → Except Invalid String
  decodeFilters : String → Option φ
  compile : FeatureFlag φ → Nat → γ

def FlagRow.live (row : FlagRow) (projectId : String) : Bool := row.projectId = projectId && !row.deleted

/-- `ORDER BY id`. -/
def FlagDb.liveRows (db : FlagDb) (projectId : String) : List (Nat × FlagRow) :=
  (db.flags.select fun _ row => row.live projectId).mergeSort fun a b => a.1 ≤ b.1

def FlagDb.nextId (db : FlagDb) : Nat := (db.flags.rows.map Prod.fst).foldl max 0 + 1

/-- The live keys of a project are unique. -/
def FlagDb.keyTaken (db : FlagDb) (projectId key : String) (id : Nat) : Bool :=
  db.flags.rows.any fun m => m.2.live projectId && m.2.key = key && m.1 ≠ id

section store
variable {φ γ : Type} (codec : FlagCodec φ γ)

def decode (id : Nat) (row : FlagRow) : Except FlagStoreError (FeatureFlag φ × Nat) :=
  match codec.decodeFilters row.filters with
  | some filters =>
    .ok (⟨id, row.key, row.name, row.active, filters, row.ensureExperienceContinuity, row.createdAt, row.updatedAt⟩, row.version)
  | none => .error (.corrupt ("flag " ++ toString id))

def load (db : FlagDb) (projectId : String) (id : Nat) : Except FlagStoreError (FeatureFlag φ × Nat) :=
  match (db.flags.get id).filter (·.live projectId) with
  | some row => decode codec id row
  | none => .error .notFound

/-- Live flags with their versions, oldest first. -/
def definitions (db : FlagDb) (projectId : String) : Except FlagStoreError (List (FeatureFlag φ × Nat)) :=
  ((db.liveRows projectId).take maxFlagsPerProject).mapM fun m => decode codec m.1 m.2

/-- The definitions as `compiled` hands them out. -/
def compiledDefinitions (db : FlagDb) (projectId : String) : Except FlagStoreError (List γ) :=
  (definitions codec db projectId).map fun flags => flags.map fun m => codec.compile m.1 m.2

def create (projectId : String) (input : FeatureFlagInput φ) (now : String) (db : FlagDb) : Except FlagStoreError (Nat × FlagDb) := do
  codec.validateInput input |>.mapError .invalid
  let filters ← codec.encodeFilters input.filters |>.mapError .invalid
  if maxFlagsPerProject ≤ (db.liveRows projectId).length then
    throw (.limitExceeded "a project may have at most 2000 feature flags")
  if projectId ∉ db.projects then throw .notFound
  let id := db.nextId
  if db.keyTaken projectId input.key id then throw .conflict
  let row : FlagRow :=
    ⟨projectId, input.key, input.name, input.active, filters, input.ensureExperienceContinuity, 1, false, now, now⟩
  match db.flags.insert id row with
  | some flags => return (id, { db with flags })
  | none => throw .conflict

def update (projectId : String) (id : Nat) (patch : FeatureFlagPatch φ) (now : String) (db : FlagDb) :
    Except FlagStoreError (FeatureFlag φ × FlagDb) := do
  let (current, _) ← load codec db projectId id
  let next : FeatureFlagInput φ := ⟨patch.key.getD current.key, patch.name.getD current.name, patch.active.getD current.active,
    patch.filters.getD current.filters, patch.ensureExperienceContinuity.getD current.ensureExperienceContinuity⟩
  codec.validateInput next |>.mapError .invalid
  let filters ← codec.encodeFilters next.filters |>.mapError .invalid
  if db.keyTaken projectId next.key id then throw .conflict
  let db := { db with flags := db.flags.update fun i row =>
    if i = id ∧ row.live projectId then { row with
      key := next.key, name := next.name, active := next.active, filters,
      ensureExperienceContinuity := next.ensureExperienceContinuity, version := row.version + 1, updatedAt := now }
    else row }
  let (updated, _) ← load codec db projectId id
  return (updated, db)

/-- Soft delete: the row stays for history, the key becomes reusable. -/
def delete (projectId : String) (id : Nat) (now : String) (db : FlagDb) : Except FlagStoreError FlagDb :=
  if ((db.flags.get id).filter (·.live projectId)).isNone then .error .notFound
  else .ok { db with flags := db.flags.update fun i row =>
    if i = id ∧ row.live projectId then { row with
      deleted := true, active := false, version := row.version + 1, updatedAt := now }
    else row }

inductive Write (φ : Type) where
  | create (input : FeatureFlagInput φ)
  | update (id : Nat) (patch : FeatureFlagPatch φ)
  | delete (id : Nat)

/-- What a write to a project commits. -/
def Write.commit (w : Write φ) (projectId now : String) (db : FlagDb) : Except FlagStoreError FlagDb :=
  match w with
  | .create input => (Flags.create codec projectId input now db).map Prod.snd
  | .update id patch => (Flags.update codec projectId id patch now db).map Prod.snd
  | .delete id => Flags.delete projectId id now db

end store

section frame
variable {φ γ : Type} {codec : FlagCodec φ γ} {db db' : FlagDb} {p q now : String}

private theorem liveRows_update (id : Nat) (f : FlagRow → FlagRow) (hf : ∀ row, (f row).projectId = row.projectId) (hne : q ≠ p) :
    FlagDb.liveRows { db with flags := db.flags.update fun i row => if i = id ∧ row.live p then f row else row } q = db.liveRows q := by
  unfold FlagDb.liveRows
  congr 1
  simp only [Table.select, Table.update]
  induction db.flags.rows with
  | nil => rfl
  | cons m rows ih =>
    rw [List.map_cons, List.filter_cons, List.filter_cons, ih]
    by_cases h : m.1 = id ∧ m.2.live p = true
    · have hp : m.2.projectId = p := by
        have := h.2
        simp only [FlagRow.live, Bool.and_eq_true, decide_eq_true_eq] at this
        exact this.1
      rw [if_pos h]
      simp [FlagRow.live, hf, hp, Ne.symm hne]
    · rw [if_neg h]

/-- A write to one project leaves the definitions of the others alone. -/
theorem commit_other {w : Write φ} (h : w.commit codec p now db = .ok db') (hne : q ≠ p) :
    compiledDefinitions codec db' q = compiledDefinitions codec db q := by
  suffices hrows : db'.liveRows q = db.liveRows q by rw [compiledDefinitions, definitions, hrows]; rfl
  cases w with
  | create input =>
    simp only [Write.commit, create, map_ok, bind_ok] at h
    obtain ⟨⟨id, db''⟩, ⟨⟨⟩, -, filters, -, h⟩, rfl⟩ := h
    split at h
    · cases h
    split at h
    · cases h
    split at h
    · cases h
    split at h
    · rename_i flags hinsert
      cases h
      unfold FlagDb.liveRows
      congr 1
      simp only [Table.select, (Table.insert_eq_some hinsert).2, List.filter_append]
      simp [FlagRow.live, Ne.symm hne]
    · cases h
  | update id patch =>
    simp only [Write.commit, update, map_ok, bind_ok] at h
    obtain ⟨⟨flag, db''⟩, ⟨current, -, ⟨⟩, -, filters, -, h⟩, rfl⟩ := h
    split at h
    · cases h
    simp only [bind_ok] at h
    obtain ⟨updated, -, h⟩ := h
    cases h
    exact liveRows_update id _ (fun _ => rfl) hne
  | delete id =>
    simp only [Write.commit, delete] at h
    split at h
    · cases h
    · cases h
      exact liveRows_update id _ (fun _ => rfl) hne

end frame
end Hoglet.Flags
