import Hoglet.Lake.World

/-! What the file operations touch: which paths an operation may have changed when it ends, well or
badly, and what a written file then holds. -/
namespace Hoglet.Lake
variable {ν U α : Type} {m : Machine} {S T : Path → Prop} {w w' w'' : World ν U}

/-- Only files changed, and of those only the paths in `S`; a directory sync may have happened. -/
structure Touches (S : Path → Prop) (w w' : World ν U) : Prop where
  same : w' = { w with disk := w'.disk, stored := w'.stored, ops := w'.ops }
  disk : ∀ p, ¬ S p → w'.disk.get p = w.disk.get p
  stored : ∀ p, ¬ S p → w'.stored p = w.stored p ∨ w'.stored p = w.disk.get p

/-- The path holds this content for good. -/
def World.Holds (w : World ν U) (p : Path) (content : Content ν U) : Prop :=
  w.disk.get p = some content ∧ w.stored p = some content

namespace Touches

theorem refl (S : Path → Prop) (w : World ν U) : Touches S w w := ⟨rfl, fun _ _ => rfl, fun _ _ => .inl rfl⟩

theorem trans (h : Touches S w w') (h' : Touches S w' w'') : Touches S w w'' := by
  refine ⟨?_, fun p hp => (h'.disk p hp).trans (h.disk p hp), fun p hp => ?_⟩
  · rw [h'.same, h.same]
  · rcases h'.stored p hp with he | he
    · rw [he]
      exact h.stored p hp
    · exact .inr (he.trans (h.disk p hp))

theorem mono (h : Touches S w w') (hst : ∀ p, S p → T p) : Touches T w w' :=
  ⟨h.same, fun p hp => h.disk p fun hs => hp (hst p hs), fun p hp => h.stored p fun hs => hp (hst p hs)⟩

theorem db (h : Touches S w w') : w'.db = w.db := by rw [h.same]

theorem snapshot (h : Touches S w w') : w'.snapshot = w.snapshot := by rw [h.same]

theorem holds (h : Touches S w w') {p : Path} {content : Content ν U} (hp : ¬ S p) (hh : w.Holds p content) :
    w'.Holds p content := by
  refine ⟨(h.disk p hp).trans hh.1, ?_⟩
  rcases h.stored p hp with he | he
  · exact he.trans hh.2
  · exact he.trans hh.1

/-- Another operation counted. -/
theorem tick (w : World ν U) (n : Nat) : Touches S w { w with ops := n } := ⟨rfl, fun _ _ => rfl, fun _ _ => .inl rfl⟩

end Touches

instance : Std.Refl (Touches (ν := ν) (U := U) S) := ⟨Touches.refl S⟩
instance : IsTrans (World ν U) (Touches S) := ⟨fun _ _ _ => Touches.trans⟩

/-- The computation has only touched the paths in `S`. -/
abbrev Works (S : Path → Prop) (x : Steps ν U α) (w : World ν U) (Q : α → World ν U → Prop) : Prop :=
  Along (Touches S) x w Q

/-- Nothing happened but operations. -/
def Idled (w w' : World ν U) : Prop := ∃ n, w' = { w with ops := n }

instance : Std.Refl (Idled (ν := ν) (U := U)) := ⟨fun w => ⟨w.ops, rfl⟩⟩
instance : IsTrans (World ν U) Idled := ⟨fun _ _ _ ⟨_, h⟩ ⟨n, h'⟩ => ⟨n, by rw [h', h]⟩⟩

theorem Idled.touches (S : Path → Prop) (h : Idled w w') : Touches S w w' := by
  obtain ⟨n, rfl⟩ := h
  exact .tick w n

/-- An outcome taken as a value: the computation's own, or an error. -/
theorem attempt_along {R : World ν U → World ν U → Prop} {P : α → World ν U → Prop} {x : Steps ν U α}
    (h : Along R x w P) : Along R (attempt x) w fun r w' => ∀ a, r = .ok a → P a w' := by
  unfold Along Ends attempt at *
  cases hx : x w with
  | ok a w' =>
    simp only [hx] at h ⊢
    exact ⟨h.1, fun _ heq => by cases heq; exact h.2⟩
  | error e w' =>
    simp only [hx] at h
    cases e <;> simp only <;> first | exact h | exact ⟨h, fun _ heq => by cases heq⟩

theorem ignoringErrors_works {x : Steps ν U Unit} {P : Unit → World ν U → Prop} (h : Works S x w P) :
    Works S (ignoringErrors x) w fun _ _ => True := (attempt_along h).bind fun _ _ _ _ => .pure trivial

/-- Only the end of the process keeps an ignored error from passing. -/
theorem ignoringErrors_ends {x : Steps ν U Unit} {P : Unit → World ν U → Prop} (h : Works S x w P) :
    Ends (ignoringErrors x) w (fun _ w' => Touches S w w') fun e w' => e = .crashed ∧ Touches S w w' := by
  refine Ends.bind ?_
  unfold Works Along Ends at h
  unfold Ends attempt
  cases hx : x w with
  | ok a w' =>
    simp only [hx] at h
    exact h.1
  | error e w' =>
    simp only [hx] at h
    cases e <;> simp only <;> first | exact ⟨trivial, h⟩ | exact h

/-- An operation did its work, or it failed and left the world alone or in the state it leaves when a
reported failure landed. -/
theorem operation_ends (error : PipelineError) (f landed : World ν U → World ν U) :
    Ends (operation m error f landed) w (fun _ w' => w' = f { w with ops := w.ops + 1 })
      fun _ w' => w' = { w with ops := w.ops + 1 } ∨ w' = landed { w with ops := w.ops + 1 } := by
  unfold Ends operation
  cases m.faults w.ops with
  | none => rfl
  | some fault =>
    cases fault with
    | crash => exact .inl rfl
    | fails landed' =>
      cases landed' with
      | true => exact .inr rfl
      | false => exact .inl rfl

theorem operation_works {error : PipelineError} {f landed : World ν U → World ν U}
    (hf : ∀ n, Touches S w (f { w with ops := n })) (hl : ∀ n, Touches S w (landed { w with ops := n })) :
    Works S (operation m error f landed) w fun _ w' => w' = f { w with ops := w.ops + 1 } :=
  (operation_ends error f landed).mono (fun _ w' hw' => ⟨hw' ▸ hf _, hw'⟩) fun _ w' hw' => by
    rcases hw' with rfl | rfl
    · exact .tick w _
    · exact hl _

theorem idle_works (error : PipelineError) :
    Along Idled (operation m error id id) w fun _ w' => w' = { w with ops := w.ops + 1 } :=
  (operation_ends error id id).mono (fun _ _ hw' => ⟨⟨_, hw'⟩, hw'⟩) fun _ _ hw' => ⟨_, hw'.elim id id⟩

theorem statement_works (x : Except PipelineError α) : Along Idled (statement m x) w fun a _ => x = .ok a := by
  refine (idle_works .database).bind fun _ w' _ _ => ?_
  cases x with
  | ok a => exact .pure rfl
  | error e => exact .throw

private theorem removed_get (w : World ν U) (path p : Path) :
    (w.removed path).disk.get p = if p = path then none else w.disk.get p := by
  rw [World.removed, Table.get_delete]
  cases w.disk.get p <;> simp [Option.filter, apply_ite]

theorem removeFile_works (path : Path) : Works (· = path) (removeFile m path) w fun _ w' =>
    w'.disk.get path = none ∧ ∀ p, w.disk.get p = none → w'.disk.get p = none := by
  have h : ∀ n, Touches (· = path) w (World.removed path { w with ops := n }) := by
    refine fun n => ⟨rfl, fun p hp => ?_, fun _ _ => .inl rfl⟩
    rw [removed_get, if_neg hp]
  refine (operation_works h h).mono fun _ w' hw' => ?_
  rw [hw', removed_get, if_pos rfl]
  refine ⟨rfl, fun p hp => ?_⟩
  rw [removed_get, hp, ite_self]

theorem writeTemporary_works (error : PipelineError) (path : Path) (content : Content ν U) :
    Works (·.temporary) (writeTemporary m error path content) w fun _ w' => w'.disk.get path.withTmp = some content := by
  have h : ∀ c n, Touches (·.temporary) w (World.written path.withTmp c { w with ops := n }) := by
    refine fun c n => ⟨rfl, fun p hp => ?_, fun _ _ => .inl rfl⟩
    rw [World.written, Table.get_put, if_neg]
    rintro rfl
    exact hp rfl
  refine (operation_works (h content) (h [])).mono fun _ w' hw' => ?_
  rw [hw', World.written, Table.get_put, if_pos rfl]

private theorem renamed_get (w : World ν U) (path p : Path) : (w.renamed path).disk.get p =
    if p = path.withTmp then none else if p = path then some ((w.disk.get path.withTmp).getD []) else w.disk.get p := by
  rw [World.renamed, Table.get_delete, Table.get_put]
  by_cases ht : p = path.withTmp
  · rw [if_pos ht]
    cases (if p = path then some ((w.disk.get path.withTmp).getD []) else w.disk.get p) <;> simp [Option.filter, ht]
  · rw [if_neg ht]
    cases (if p = path then some ((w.disk.get path.withTmp).getD []) else w.disk.get p) <;> simp [Option.filter, ht]

theorem rename_works {path : Path} {content : Content ν U} (hw : w.disk.get path.withTmp = some content)
    (hp : path.temporary = false) :
    Works (fun p => p.temporary ∨ p = path) (rename m path) w fun _ w' => w'.disk.get path = some content := by
  have h : ∀ n, Touches (fun p => p.temporary ∨ p = path) w (World.renamed path { w with ops := n }) := by
    refine fun n => ⟨rfl, fun p hs => ?_, fun _ _ => .inl rfl⟩
    rw [renamed_get, if_neg, if_neg fun heq => hs (.inr heq)]
    rintro rfl
    exact hs (.inl rfl)
  refine (operation_works h h).mono fun _ w' hw' => ?_
  have hne : path ≠ path.withTmp := fun heq => by
    rw [heq] at hp
    cases hp
  rw [hw', renamed_get, if_neg hne, if_pos rfl]
  exact congrArg some (by rw [hw, Option.getD_some])

theorem syncDir_works (path : Path) : Works (fun _ => False) (syncDir m path) w fun _ w' =>
    w'.disk = w.disk ∧ w'.stored path = w.disk.get path := by
  have h : ∀ n, Touches (fun _ => False) w (World.synced path { w with ops := n }) := by
    refine fun n => ⟨rfl, fun _ _ => rfl, fun p _ => ?_⟩
    rw [World.synced]
    simp only
    split
    · exact .inr rfl
    · exact .inl rfl
  refine (operation_works h h).mono fun _ w' hw' => ?_
  rw [hw']
  exact ⟨rfl, if_pos (by simp [Path.beside])⟩

/-- A written file holds its rows for good; only it and temporary files were touched. -/
theorem writeFile_works (error : PipelineError) {path : Path} (hp : path.temporary = false) (content : Content ν U) :
    Works (fun p => p.temporary ∨ p = path) (writeFile m error path content) w fun _ w' => w'.Holds path content := by
  refine ((idle_works .io).widen fun _ => Idled.touches _).bind fun _ w₁ _ _ => ?_
  refine ((writeTemporary_works error path content).widen fun _ ht => ht.mono fun _ => .inl).bind fun _ w₂ _ hw₂ => .get ?_
  refine ((idle_works .io).widen fun _ => Idled.touches _).bind fun _ w₃ _ hw₃ => ?_
  refine (rename_works (by rw [hw₃]; exact hw₂) hp).bind fun _ w₄ _ hw₄ => ?_
  refine ((syncDir_works path).widen fun _ ht => ht.mono fun _ => False.elim).bind fun _ w₅ _ hw₅ => .pure ⟨?_, ?_⟩
  · rw [hw₅.1, hw₄]
  · rw [hw₅.2, hw₄]

theorem readParquet_works (files : List LakeFile) : Along Idled (readParquet m files) w fun rows _ =>
    rows = files.flatMap fun file => (w.disk.get file.path).getD [] := by
  refine (idle_works _).bind fun _ w₁ _ hw₁ => .get ?_
  have hdisk : w₁.disk = w.disk := by rw [hw₁]
  simp only [hdisk]
  cases h : files.mapM fun file => w.disk.get file.path with
  | none => exact .throw
  | some contents =>
    refine .pure ?_
    clear hw₁
    induction files generalizing contents with
    | nil =>
      cases h
      rfl
    | cons file files ih =>
      rw [List.mapM_cons] at h
      obtain ⟨c, hc, h⟩ := Option.bind_eq_some_iff.mp h
      obtain ⟨cs, hcs, h⟩ := Option.bind_eq_some_iff.mp h
      cases h
      rw [List.flatten_cons, List.flatMap_cons, ih cs hcs, hc, Option.getD_some]

end Hoglet.Lake
