import Hoglet.Flags.Store
import Hoglet.System

/-! The cache of compiled definitions under concurrent readers and writers: a reader's lookup, database read
and insert, and a writer's commit and invalidation are separate critical sections. -/
namespace Hoglet.Flags

/-- A full cache is cleared wholesale. -/
def maxCachedProjects : Nat := 1024

/-- Compiled definitions, and how many writes to their project they come after. The number is bookkeeping of
the model, as are the clock, the counts and the histories below. -/
structure Entry (γ : Type) where
  flags : List γ
  number : Nat

/-- A `compiled` call that missed the cache, before and after its database read. -/
structure Reader (γ : Type) where
  project : String
  generation : Nat
  invalidations : Nat
  started : Nat
  read : Option (Entry γ)

structure Finished (γ : Type) where
  project : String
  started : Nat
  ended : Nat
  result : Entry γ

/-- A write that is committed and invalidated, so that it can return. -/
structure Written where
  project : String
  number : Nat
  invalidated : Nat

structure Service (γ : Type) where
  db : FlagDb
  generation : Nat
  projects : Table String (Entry γ)
  readers : List (Reader γ)
  writers : List (String × Nat)
  clock : Nat
  invalidations : Nat
  count : String → Nat
  contents : String → Nat → Except FlagStoreError (List γ)
  finished : List (Finished γ)
  written : List Written

inductive Action (φ γ : Type) where
  | hit (project : String)
  | miss (project : String)
  | read (reader : Reader γ)
  | insert (reader : Reader γ)
  | commit (project : String) (write : Write φ)
  | invalidate (project : String) (number : Nat)

section steps
variable {φ γ : Type} (codec : FlagCodec φ γ)

def Service.opened (db : FlagDb) : Service γ :=
  ⟨db, 0, .empty, [], [], 0, 0, fun _ => 0, fun project _ => compiledDefinitions codec db project, [], []⟩

/-- The cache after a reader's last step: a write since its lookup keeps it from caching what it read. -/
def Service.cached (s : Service γ) (r : Reader γ) (e : Entry γ) : Table String (Entry γ) :=
  if s.generation = r.generation then
    (if maxCachedProjects ≤ s.projects.rows.length then .empty else s.projects).put r.project e
  else s.projects

inductive Step : Action φ γ → Service γ → Service γ → Prop
  | hit {s : Service γ} (p : String) {e : Entry γ} (h : s.projects.get p = some e) :
      Step (.hit p) s { s with clock := s.clock + 1, finished := ⟨p, s.clock, s.clock, e⟩ :: s.finished }
  | miss {s : Service γ} (p : String) (h : s.projects.get p = none) :
      Step (.miss p) s { s with
        clock := s.clock + 1, readers := ⟨p, s.generation, s.invalidations, s.clock, none⟩ :: s.readers }
  | read {s : Service γ} (pre post : List (Reader γ)) (r : Reader γ) {flags : List γ} (hr : s.readers = pre ++ r :: post)
      (hread : r.read = none) (h : compiledDefinitions codec s.db r.project = .ok flags) :
      Step (.read r) s { s with
        clock := s.clock + 1, readers := pre ++ { r with read := some ⟨flags, s.count r.project⟩ } :: post }
  | fail {s : Service γ} (pre post : List (Reader γ)) (r : Reader γ) (hr : s.readers = pre ++ r :: post) (hread : r.read = none) :
      Step (.read r) s { s with clock := s.clock + 1, readers := pre ++ post }
  | insert {s : Service γ} (pre post : List (Reader γ)) (r : Reader γ) {e : Entry γ} (hr : s.readers = pre ++ r :: post)
      (hread : r.read = some e) :
      Step (.insert r) s { s with
        clock := s.clock + 1, readers := pre ++ post, projects := s.cached r e,
        finished := ⟨r.project, r.started, s.clock, e⟩ :: s.finished }
  | commit {s : Service γ} (p : String) (w : Write φ) (now : String) {db : FlagDb} (h : w.commit codec p now s.db = .ok db) :
      Step (.commit p w) s { s with
        db, clock := s.clock + 1, writers := (p, s.count p + 1) :: s.writers,
        count := Function.update s.count p (s.count p + 1),
        contents := Function.update s.contents p
          (Function.update (s.contents p) (s.count p + 1) (compiledDefinitions codec db p)) }
  | invalidate {s : Service γ} (pre post : List (String × Nat)) (p : String) (n : Nat) (hw : s.writers = pre ++ (p, n) :: post) :
      Step (.invalidate p n) s { s with
        generation := (s.generation + 1) % 2^64, projects := s.projects.delete fun k _ => k = p, clock := s.clock + 1,
        invalidations := s.invalidations + 1, writers := pre ++ post, written := ⟨p, n, s.clock⟩ :: s.written }

end steps

section property
variable {φ γ : Type}

/-- Every finished call returned the definitions after some write to its project, no earlier one than any write
that had returned when it started, and none than any that a call finished by then had returned. -/
structure Service.Fresh (s : Service γ) : Prop where
  real : ∀ c ∈ s.finished, s.contents c.project c.result.number = .ok c.result.flags
  included : ∀ c ∈ s.finished, ∀ w ∈ s.written, w.project = c.project → w.invalidated < c.started → w.number ≤ c.result.number
  monotone : ∀ c ∈ s.finished, ∀ c' ∈ s.finished, c.project = c'.project → c.ended < c'.started → c.result.number ≤ c'.result.number

/-- The reader's last step leaves no older entry for its project than what calls have returned. -/
def Service.Current (s : Service γ) (r : Reader γ) : Prop :=
  ∀ e, r.read = some e →
    if s.generation = r.generation then ∀ c ∈ s.finished, c.project = r.project → c.result.number ≤ e.number
    else ∀ e', s.projects.get r.project = some e' → e.number ≤ e'.number

/-- Besides, the 64-bit generation has not come round while the reader was away. -/
def Orderly (a : Action φ γ) (s : Service γ) : Prop :=
  ∀ r, a = .insert r → s.invalidations - r.invalidations < 2^64 ∧ s.Current r

end property

section invariant
variable {φ γ : Type} {codec : FlagCodec φ γ} {s s' : Service γ}

/-- The definitions are those after the write they are numbered by. -/
def Service.Holds (s : Service γ) (p : String) (e : Entry γ) : Prop :=
  s.contents p e.number = .ok e.flags ∧ e.number ≤ s.count p

/-- What is known of a reader: nothing was invalidated since its lookup if the count of invalidations is the
same, and what it has read is no older than what was there when it started. -/
structure Service.Pending (s : Service γ) (r : Reader γ) : Prop where
  generation : r.generation = r.invalidations % 2^64
  invalidations : r.invalidations ≤ s.invalidations
  started : r.started < s.clock
  still : r.invalidations = s.invalidations → ∀ w ∈ s.written, w.invalidated < r.started
  holds : ∀ e, r.read = some e → s.Holds r.project e
  included : ∀ e, r.read = some e → ∀ w ∈ s.written, w.project = r.project → w.invalidated < r.started → w.number ≤ e.number
  monotone : ∀ e, r.read = some e → ∀ c ∈ s.finished, c.project = r.project → c.ended < r.started → c.result.number ≤ e.number

/-- What is known of a cached entry: it includes every write that has returned, and is no older than what any
call has returned. -/
structure Service.Newest (s : Service γ) (p : String) (e : Entry γ) : Prop where
  holds : s.Holds p e
  included : ∀ w ∈ s.written, w.project = p → w.number ≤ e.number
  monotone : ∀ c ∈ s.finished, c.project = p → c.result.number ≤ e.number

structure Service.Inv (codec : FlagCodec φ γ) (s : Service γ) : Prop where
  current : ∀ p, s.contents p (s.count p) = compiledDefinitions codec s.db p
  counter : s.generation = s.invalidations % 2^64
  entries : ∀ p e, s.projects.get p = some e → s.Newest p e
  readers : ∀ r ∈ s.readers, s.Pending r
  writers : ∀ m ∈ s.writers, m.2 ≤ s.count m.1
  written : ∀ w ∈ s.written, w.number ≤ s.count w.project ∧ w.invalidated < s.clock
  finished : ∀ c ∈ s.finished, s.Holds c.project c.result ∧ c.started < s.clock ∧ c.ended < s.clock
  included : ∀ c ∈ s.finished, ∀ w ∈ s.written, w.project = c.project → w.invalidated < c.started → w.number ≤ c.result.number
  monotone : ∀ c ∈ s.finished, ∀ c' ∈ s.finished, c.project = c'.project → c.ended < c'.started → c.result.number ≤ c'.result.number

theorem Service.Inv.fresh (h : s.Inv codec) : s.Fresh := ⟨fun c hc => (h.finished c hc).1.1, h.included, h.monotone⟩

/-- What a reader knows survives a step that adds to the histories. -/
private theorem Service.Pending.step {r : Reader γ} (h : s.Pending r) (hclock : s.clock ≤ s'.clock)
    (hholds : ∀ p e, s.Holds p e → s'.Holds p e)
    (hinv : s'.invalidations = s.invalidations ∧ s'.written = s.written ∨ s.invalidations < s'.invalidations)
    (hwritten : ∀ w ∈ s'.written, w ∈ s.written ∨ s.clock ≤ w.invalidated)
    (hfinished : ∀ c ∈ s'.finished, c ∈ s.finished ∨ s.clock ≤ c.ended) : s'.Pending r := by
  have hle := h.invalidations
  have hstarted := h.started
  refine ⟨h.generation, ?_, by omega, fun heq => ?_, fun e he => hholds _ _ (h.holds e he), fun e he w hw hp hlt => ?_,
    fun e he c hc hp hlt => ?_⟩
  · rcases hinv with ⟨hsame, -⟩ | hlt <;> omega
  · rcases hinv with ⟨hsame, hwsame⟩ | hlt
    · rw [hwsame]
      exact h.still (by omega)
    · omega
  · rcases hwritten w hw with hold | hnew
    · exact h.included e he w hold hp hlt
    · omega
  · rcases hfinished c hc with hold | hnew
    · exact h.monotone e he c hold hp hlt
    · omega

/-- A call that finishes now with definitions as new as everything before its start keeps the histories in order. -/
private theorem Service.Inv.finish (h : s.Inv codec) {p : String} {started : Nat} {e : Entry γ} (hstarted : started ≤ s.clock)
    (hincluded : ∀ w ∈ s.written, w.project = p → w.invalidated < started → w.number ≤ e.number)
    (hmonotone : ∀ c ∈ s.finished, c.project = p → c.ended < started → c.result.number ≤ e.number) :
    (∀ c ∈ (⟨p, started, s.clock, e⟩ : Finished γ) :: s.finished, ∀ w ∈ s.written, w.project = c.project → w.invalidated < c.started →
      w.number ≤ c.result.number) ∧
    ∀ c ∈ (⟨p, started, s.clock, e⟩ : Finished γ) :: s.finished, ∀ c' ∈ (⟨p, started, s.clock, e⟩ : Finished γ) :: s.finished,
      c.project = c'.project → c.ended < c'.started → c.result.number ≤ c'.result.number := by
  constructor
  · intro c hc w hw hp hlt
    rcases List.mem_cons.mp hc with rfl | hc
    · exact hincluded w hw hp hlt
    · exact h.included c hc w hw hp hlt
  · intro c hc c' hc' hp hlt
    rcases List.mem_cons.mp hc with rfl | hc <;> rcases List.mem_cons.mp hc' with rfl | hc'
    · exact absurd hlt (by simp only; omega)
    · have := (h.finished c' hc').2.1
      simp only at hlt
      omega
    · exact hmonotone c hc hp hlt
    · exact h.monotone c hc c' hc' hp hlt

private theorem Service.Newest.congr {p : String} {e : Entry γ} (h : s.Newest p e) (hholds : s'.Holds p e) (hwritten : s'.written = s.written)
    (hfinished : ∀ c ∈ s'.finished, c ∈ s.finished ∨ (c.project = p → c.result.number ≤ e.number)) : s'.Newest p e := by
  refine ⟨hholds, hwritten ▸ h.included, fun c hc hp => ?_⟩
  rcases hfinished c hc with hold | hnew
  · exact h.monotone c hold hp
  · exact hnew hp

private theorem inv_hit (h : s.Inv codec) {p : String} {e : Entry γ} (he : s.projects.get p = some e) :
    ({ s with clock := s.clock + 1, finished := ⟨p, s.clock, s.clock, e⟩ :: s.finished } : Service γ).Inv codec := by
  have hnew := h.entries p e he
  obtain ⟨hincluded, hmonotone⟩ := h.finish (le_refl s.clock) (fun w hw hp _ => hnew.included w hw hp) fun c hc hp _ => hnew.monotone c hc hp
  refine ⟨h.current, h.counter, fun q e' he' => (h.entries q e' he').congr (h.entries q e' he').holds rfl fun c hc => ?_, fun r hr => ?_,
    h.writers, fun w hw => ⟨(h.written w hw).1, Nat.lt_succ_of_lt (h.written w hw).2⟩, fun c hc => ?_, hincluded, hmonotone⟩
  · rcases List.mem_cons.mp hc with rfl | hc
    · refine .inr ?_
      rintro rfl
      rw [he] at he'
      cases he'
      exact le_refl _
    · exact .inl hc
  · refine (h.readers r hr).step (Nat.le_succ _) (fun _ _ h => h) (.inl ⟨rfl, rfl⟩) (fun _ hw => .inl hw) fun c hc => ?_
    rcases List.mem_cons.mp hc with rfl | hc
    · exact .inr (le_refl _)
    · exact .inl hc
  · rcases List.mem_cons.mp hc with rfl | hc
    · exact ⟨hnew.holds, Nat.lt_succ_self _, Nat.lt_succ_self _⟩
    · obtain ⟨hholds, hs, he⟩ := h.finished c hc
      exact ⟨hholds, Nat.lt_succ_of_lt hs, Nat.lt_succ_of_lt he⟩

/-- A step that changes the readers only, each to one of which as much is known. -/
private theorem inv_readers (h : s.Inv codec) {readers : List (Reader γ)}
    (hr : ∀ r ∈ readers, ({ s with clock := s.clock + 1, readers } : Service γ).Pending r) :
    ({ s with clock := s.clock + 1, readers } : Service γ).Inv codec := by
  refine ⟨h.current, h.counter, fun q e he => (h.entries q e he).congr (h.entries q e he).holds rfl fun c hc => .inl hc, hr, h.writers,
    fun w hw => ⟨(h.written w hw).1, Nat.lt_succ_of_lt (h.written w hw).2⟩, fun c hc => ?_, h.included, h.monotone⟩
  obtain ⟨hholds, hs, he⟩ := h.finished c hc
  exact ⟨hholds, Nat.lt_succ_of_lt hs, Nat.lt_succ_of_lt he⟩

private theorem Service.Inv.reader_later (h : s.Inv codec) {readers : List (Reader γ)} {r : Reader γ} (hr : r ∈ s.readers) :
    ({ s with clock := s.clock + 1, readers } : Service γ).Pending r :=
  (h.readers r hr).step (Nat.le_succ _) (fun _ _ h => h) (.inl ⟨rfl, rfl⟩) (fun _ hw => .inl hw) fun _ hc => .inl hc

private theorem mem_around {α : Type} {l pre post : List α} {r r' : α} (hl : l = pre ++ r :: post) (h : r' ∈ pre ++ post) : r' ∈ l := by
  rw [hl]
  rcases List.mem_append.mp h with h | h
  · exact List.mem_append_left _ h
  · exact List.mem_append_right _ (List.mem_cons_of_mem _ h)

private theorem mem_replaced {α : Type} {l pre post : List α} {r r' x : α} (hl : l = pre ++ r :: post) (h : x ∈ pre ++ r' :: post) :
    x = r' ∨ x ∈ l := by
  rcases List.mem_append.mp h with h | h
  · exact .inr (hl ▸ List.mem_append_left _ h)
  · rcases List.mem_cons.mp h with rfl | h
    · exact .inl rfl
    · exact .inr (hl ▸ List.mem_append_right _ (List.mem_cons_of_mem _ h))

private theorem inv_miss (h : s.Inv codec) (p : String) : ({ s with
    clock := s.clock + 1, readers := ⟨p, s.generation, s.invalidations, s.clock, none⟩ :: s.readers } : Service γ).Inv codec := by
  refine inv_readers h fun r hr => ?_
  rcases List.mem_cons.mp hr with rfl | hr
  · exact ⟨h.counter, le_refl _, Nat.lt_succ_self _, fun _ w hw => (h.written w hw).2, fun _ he => (by cases he), fun _ he => (by cases he),
      fun _ he => (by cases he)⟩
  · exact h.reader_later hr

/-- What the database holds now is no older than anything before. -/
private theorem inv_read (h : s.Inv codec) {pre post : List (Reader γ)} {r : Reader γ} {flags : List γ} (hr : s.readers = pre ++ r :: post)
    (hflags : compiledDefinitions codec s.db r.project = .ok flags) : ({ s with
      clock := s.clock + 1, readers := pre ++ { r with read := some ⟨flags, s.count r.project⟩ } :: post } : Service γ).Inv codec := by
  refine inv_readers h fun r' hr' => ?_
  rcases mem_replaced hr hr' with rfl | hin
  · have hold := h.readers r (hr ▸ List.mem_append_right _ List.mem_cons_self)
    refine ⟨hold.generation, hold.invalidations, Nat.lt_succ_of_lt hold.started, hold.still, ?_, ?_, ?_⟩
    · rintro _ ⟨⟩
      exact ⟨(h.current r.project).trans hflags, le_refl _⟩
    · rintro _ ⟨⟩ w hw hp -
      exact hp ▸ (h.written w hw).1
    · rintro _ ⟨⟩ c hc hp -
      exact hp ▸ (h.finished c hc).1.2
  · exact h.reader_later hin

private theorem inv_commit (h : s.Inv codec) {p now : String} {w : Write φ} {db : FlagDb} (hw : w.commit codec p now s.db = .ok db) :
    ({ s with
      db, clock := s.clock + 1, writers := (p, s.count p + 1) :: s.writers, count := Function.update s.count p (s.count p + 1),
      contents := Function.update s.contents p
        (Function.update (s.contents p) (s.count p + 1) (compiledDefinitions codec db p)) } : Service γ).Inv codec := by
  have hcount : ∀ q, s.count q ≤ Function.update s.count p (s.count p + 1) q := by
    intro q
    by_cases hq : q = p
    · subst hq
      simp
    · rw [Function.update_of_ne hq]
  have hholds : ∀ q e, s.Holds q e → s.contents q e.number = Function.update s.contents p
      (Function.update (s.contents p) (s.count p + 1) (compiledDefinitions codec db p)) q e.number := by
    intro q e ⟨_, hle⟩
    by_cases hq : q = p
    · subst hq
      rw [Function.update_self, Function.update_of_ne (by omega)]
    · rw [Function.update_of_ne hq]
  refine ⟨fun q => ?_, h.counter, fun q e he => ?_, fun r hr => ?_, fun m hm => ?_, fun w hw => ?_, fun c hc => ?_, h.included, h.monotone⟩
  · by_cases hq : q = p
    · subst hq
      simp
    · simp only [Function.update_of_ne hq]
      rw [h.current q, commit_other hw hq]
  · have hold := h.entries q e he
    exact hold.congr ⟨(hholds q e hold.holds).symm.trans hold.holds.1, hold.holds.2.trans (hcount q)⟩ rfl fun c hc => .inl hc
  · exact (h.readers r hr).step (Nat.le_succ _) (fun q e hold => ⟨(hholds q e hold).symm.trans hold.1, hold.2.trans (hcount q)⟩)
      (.inl ⟨rfl, rfl⟩) (fun _ hw => .inl hw) fun _ hc => .inl hc
  · rcases List.mem_cons.mp hm with rfl | hm
    · simp
    · exact (h.writers m hm).trans (hcount _)
  · exact ⟨(h.written w hw).1.trans (hcount _), Nat.lt_succ_of_lt (h.written w hw).2⟩
  · obtain ⟨hold, hs, he⟩ := h.finished c hc
    exact ⟨⟨(hholds _ _ hold).symm.trans hold.1, hold.2.trans (hcount _)⟩, Nat.lt_succ_of_lt hs, Nat.lt_succ_of_lt he⟩

private theorem inv_invalidate (h : s.Inv codec) {pre post : List (String × Nat)} {p : String} {n : Nat}
    (hw : s.writers = pre ++ (p, n) :: post) : ({ s with
      generation := (s.generation + 1) % 2^64, projects := s.projects.delete fun k _ => k = p, clock := s.clock + 1,
      invalidations := s.invalidations + 1, writers := pre ++ post, written := ⟨p, n, s.clock⟩ :: s.written } : Service γ).Inv codec := by
  have hmem : ∀ w ∈ (⟨p, n, s.clock⟩ : Written) :: s.written, w ∈ s.written ∨ w = ⟨p, n, s.clock⟩ := fun w hw => (List.mem_cons.mp hw).symm
  refine ⟨h.current, ?_, fun q e he => ?_, fun r hr => ?_, fun m hm => h.writers m (mem_around hw hm), fun w hw' => ?_, fun c hc => ?_,
    fun c hc w hw' hp hlt => ?_, h.monotone⟩
  · change (s.generation + 1) % 2^64 = (s.invalidations + 1) % 2^64
    rw [h.counter]
    omega
  · obtain ⟨hget, hne⟩ := Table.get_delete_eq_some.mp he
    have hold := h.entries q e hget
    refine ⟨hold.holds, fun w hw' hp => ?_, hold.monotone⟩
    rcases hmem w hw' with hin | rfl
    · exact hold.included w hin hp
    · exact absurd hp.symm (of_decide_eq_false hne)
  · refine (h.readers r hr).step (Nat.le_succ _) (fun _ _ h => h) (.inr (Nat.lt_succ_self _)) (fun w hw' => ?_) fun _ hc => .inl hc
    rcases hmem w hw' with hin | rfl
    · exact .inl hin
    · exact .inr (le_refl _)
  · rcases hmem w hw' with hin | rfl
    · exact ⟨(h.written w hin).1, Nat.lt_succ_of_lt (h.written w hin).2⟩
    · exact ⟨h.writers (p, n) (hw ▸ List.mem_append_right _ List.mem_cons_self), Nat.lt_succ_self _⟩
  · obtain ⟨hholds, hs, he⟩ := h.finished c hc
    exact ⟨hholds, Nat.lt_succ_of_lt hs, Nat.lt_succ_of_lt he⟩
  · rcases hmem w hw' with hin | rfl
    · exact h.included c hc w hin hp hlt
    · have := (h.finished c hc).2.1
      simp only at hlt
      omega

/-- A failed read ends its call. -/
private theorem inv_fail (h : s.Inv codec) {pre post : List (Reader γ)} {r : Reader γ} (hr : s.readers = pre ++ r :: post) :
    ({ s with clock := s.clock + 1, readers := pre ++ post } : Service γ).Inv codec :=
  inv_readers h fun _ hr' => h.reader_later (mem_around hr hr')

/-- The entries after a reader's last step are old ones and, when its generation is still that of the cache, its own. -/
theorem Service.cached_get {r : Reader γ} {e e' : Entry γ} {p : String} (h : (s.cached r e).get p = some e') :
    s.generation = r.generation ∧ p = r.project ∧ e' = e ∨
      s.projects.get p = some e' ∧ (s.generation = r.generation → p ≠ r.project) := by
  unfold Service.cached at h
  split at h
  · rename_i heq
    rw [Table.get_put] at h
    split at h
    · rename_i hp
      exact .inl ⟨heq, hp, (Option.some.inj h).symm⟩
    · rename_i hne
      split at h
      · rw [Table.get_empty] at h
        cases h
      · exact .inr ⟨h, fun _ => hne⟩
  · rename_i hne
    exact .inr ⟨h, fun heq => absurd heq hne⟩

/-- An unchanged generation means that nothing was invalidated since the lookup, so that what was read includes
every write that has returned. -/
private theorem Service.Pending.included_all {r : Reader γ} {e : Entry γ} (h : s.Pending r) (hcounter : s.generation = s.invalidations % 2^64)
    (hread : r.read = some e) (hwrap : s.invalidations - r.invalidations < 2^64) (heq : s.generation = r.generation) :
    ∀ w ∈ s.written, w.project = r.project → w.number ≤ e.number := by
  have hsame : r.invalidations = s.invalidations := by
    have hg := h.generation
    have hle := h.invalidations
    omega
  exact fun w hw hp => h.included e hread w hw hp (h.still hsame w hw)

private theorem inv_insert (h : s.Inv codec) {pre post : List (Reader γ)} {r : Reader γ} {e : Entry γ} (hr : s.readers = pre ++ r :: post)
    (hread : r.read = some e) (hwrap : s.invalidations - r.invalidations < 2^64) (hcurrent : s.Current r) : ({ s with
      clock := s.clock + 1, readers := pre ++ post, projects := s.cached r e,
      finished := ⟨r.project, r.started, s.clock, e⟩ :: s.finished } : Service γ).Inv codec := by
  have hpending := h.readers r (hr ▸ List.mem_append_right _ List.mem_cons_self)
  have hall := hpending.included_all h.counter hread hwrap
  have hcur := hcurrent e hread
  obtain ⟨hincluded, hmonotone⟩ := h.finish hpending.started.le (hpending.included e hread) (hpending.monotone e hread)
  refine ⟨h.current, h.counter, fun q e' he' => ?_, fun r' hr' => ?_, h.writers,
    fun w hw => ⟨(h.written w hw).1, Nat.lt_succ_of_lt (h.written w hw).2⟩, fun c hc => ?_, hincluded, hmonotone⟩
  · rcases s.cached_get he' with ⟨heq, rfl, rfl⟩ | ⟨hget, hother⟩
    · rw [if_pos heq] at hcur
      refine ⟨hpending.holds e' hread, hall heq, fun c hc hp => ?_⟩
      rcases List.mem_cons.mp hc with rfl | hc
      · exact le_refl _
      · exact hcur c hc hp
    · refine (h.entries q e' hget).congr (h.entries q e' hget).holds rfl fun c hc => ?_
      rcases List.mem_cons.mp hc with rfl | hc
      · refine .inr fun hp => ?_
        have hp : r.project = q := hp
        subst hp
        rw [if_neg fun heq => hother heq rfl] at hcur
        exact hcur e' hget
      · exact .inl hc
  · refine (h.readers r' (mem_around hr hr')).step (Nat.le_succ _) (fun _ _ h => h) (.inl ⟨rfl, rfl⟩) (fun _ hw => .inl hw) fun c hc => ?_
    rcases List.mem_cons.mp hc with rfl | hc
    · exact .inr (le_refl _)
    · exact .inl hc
  · rcases List.mem_cons.mp hc with rfl | hc
    · exact ⟨hpending.holds e hread, Nat.lt_succ_of_lt hpending.started, Nat.lt_succ_self _⟩
    · obtain ⟨hholds, hs, he⟩ := h.finished c hc
      exact ⟨hholds, Nat.lt_succ_of_lt hs, Nat.lt_succ_of_lt he⟩

private theorem inv_opened (codec : FlagCodec φ γ) (db : FlagDb) : (Service.opened codec db).Inv codec :=
  ⟨fun _ => rfl, rfl, fun _ _ he => (by cases he), List.forall_mem_nil _, List.forall_mem_nil _, List.forall_mem_nil _,
    List.forall_mem_nil _, List.forall_mem_nil _, List.forall_mem_nil _⟩

theorem inv_step {a : Action φ γ} (h : s.Inv codec) (hok : Orderly a s) (hstep : Step codec a s s') : s'.Inv codec := by
  cases hstep with
  | hit p he => exact inv_hit h he
  | miss p => exact inv_miss h p
  | read pre post r hr _ hflags => exact inv_read h hr hflags
  | fail pre post r hr => exact inv_fail h hr
  | insert pre post r hr hread =>
    obtain ⟨hwrap, hcurrent⟩ := hok r rfl
    exact inv_insert h hr hread hwrap hcurrent
  | commit p w now hw => exact inv_commit h hw
  | invalidate pre post p n hw => exact inv_invalidate h hw

theorem inv_reached {db : FlagDb} (h : System.Reached (.opened codec db) (Step codec) Orderly s) : s.Inv codec :=
  h.invariant (inv_opened codec db) fun _ _ _ => inv_step

/-- A last step that leaves an older entry makes the next call return it. -/
private theorem stale_hit {r : Reader γ} (hinv : s.Inv codec) (hstep : Step codec (.insert r) s s') (hnot : ¬ s.Current r) :
    ∃ s'', Step codec (.hit r.project) s' s'' ∧ ¬ s''.Fresh := by
  cases hstep with
  | @insert _ pre post _ e hr hread =>
    have hbad : ∃ e', (s.cached r e).get r.project = some e' ∧
        ∃ c ∈ (⟨r.project, r.started, s.clock, e⟩ : Finished γ) :: s.finished, c.project = r.project ∧ e'.number < c.result.number := by
      unfold Service.Current at hnot
      push Not at hnot
      obtain ⟨e₁, he₁, hnot⟩ := hnot
      cases hread.symm.trans he₁
      by_cases heq : s.generation = r.generation
      · rw [if_pos heq] at hnot
        push Not at hnot
        obtain ⟨c, hc, hp, hlt⟩ := hnot
        exact ⟨e, by simp [Service.cached, heq], c, List.mem_cons_of_mem _ hc, hp, hlt⟩
      · rw [if_neg heq] at hnot
        push Not at hnot
        obtain ⟨e', he', hlt⟩ := hnot
        exact ⟨e', by simpa [Service.cached, heq] using he', _, List.mem_cons_self, rfl, hlt⟩
    obtain ⟨e', hget, c, hc, hp, hlt⟩ := hbad
    refine ⟨_, .hit r.project hget, fun hfresh => ?_⟩
    have hended : c.ended < s.clock + 1 := by
      rcases List.mem_cons.mp hc with rfl | hc
      · exact Nat.lt_succ_self _
      · exact Nat.lt_succ_of_lt (hinv.finished c hc).2.2
    exact absurd (hfresh.monotone c (List.mem_cons_of_mem _ hc) _ List.mem_cons_self hp hended) (by simpa using hlt)

end invariant
section claims
variable {φ γ : Type} {codec : FlagCodec φ γ}

/-- Calls return fresh definitions as long as no reader's last step leaves an older entry than what calls have
returned, and one that does makes the next call stale. -/
theorem cache_fresh (db : FlagDb) (s : Service γ) (h : System.Reached (.opened codec db) (Step codec) Orderly s) :
    s.Fresh ∧ ∀ r s', Step codec (.insert r) s s' → ¬ s.Current r → ∃ s'', Step codec (.hit r.project) s' s'' ∧ ¬ s''.Fresh :=
  ⟨(inv_reached h).fresh, fun _ _ => stale_hit (inv_reached h)⟩

end claims

/-- Flags whose filters are texts, handed out as their keys. -/
def keyCodec : FlagCodec String String := ⟨fun _ => .ok (), .ok, some, fun flag _ => flag.key⟩

def emptyDb : FlagDb := ⟨.empty, ["p"]⟩

def newFlag : Write String := .create ⟨"beta", "", true, "", false⟩

def flaggedDb : FlagDb := ⟨⟨[(1, ⟨"p", "beta", "", true, "", false, 1, false, "t", "t"⟩)], by simp⟩, ["p"]⟩

private theorem newFlag_commits : newFlag.commit keyCodec "p" "t" emptyDb = .ok flaggedDb := by
  have h : emptyDb.liveRows "p" = [] := by simp [FlagDb.liveRows, Table.select, emptyDb, Table.empty]
  simp only [newFlag, Write.commit, create, h]
  rfl

private theorem emptyDb_compiled : compiledDefinitions keyCodec emptyDb "p" = .ok [] := by decide +kernel

private theorem flaggedDb_compiled : compiledDefinitions keyCodec flaggedDb "p" = .ok ["beta"] := by decide +kernel

/-- A reader of the empty project. -/
def slowReader : Reader String := ⟨"p", 0, 0, 0, some ⟨[], 0⟩⟩

/-- Two calls missed the cache. One read the project before a flag was committed, the other read it after and has
returned; the writer has not invalidated yet. -/
def raced : Service String where
  db := flaggedDb
  generation := 0
  projects := Table.empty.put "p" ⟨["beta"], 1⟩
  readers := [slowReader]
  writers := [("p", 1)]
  clock := 6
  invalidations := 0
  count := Function.update (fun _ => 0) "p" 1
  contents := Function.update (fun p _ => compiledDefinitions keyCodec emptyDb p) "p"
    (Function.update (fun _ => compiledDefinitions keyCodec emptyDb "p") 1 (compiledDefinitions keyCodec flaggedDb "p"))
  finished := [⟨"p", 1, 5, ⟨["beta"], 1⟩⟩]
  written := []

private theorem raced_reached : System.Reached (.opened keyCodec emptyDb) (Step keyCodec) Orderly raced := by
  have h0 : System.Reached (.opened keyCodec emptyDb) (Step keyCodec) Orderly _ := .start
  have h2 := (h0.step (by rintro _ ⟨⟩) (.miss "p" rfl)).step (by rintro _ ⟨⟩) (.miss "p" rfl)
  have h3 := h2.step (by rintro _ ⟨⟩) (.read [_] [] ⟨"p", 0, 0, 0, none⟩ rfl rfl emptyDb_compiled)
  have h4 := h3.step (by rintro _ ⟨⟩) (.commit "p" newFlag "t" newFlag_commits)
  have h5 := h4.step (by rintro _ ⟨⟩) (.read [] [_] ⟨"p", 0, 0, 1, none⟩ rfl rfl flaggedDb_compiled)
  refine h5.step ?_ (.insert [] [_] ⟨"p", 0, 0, 1, some ⟨["beta"], 1⟩⟩ rfl rfl)
  rintro _ ⟨⟩
  refine ⟨by decide, ?_⟩
  rintro _ ⟨⟩ c ⟨⟩

theorem raced_fresh : raced.Fresh := (cache_fresh emptyDb raced raced_reached).1

/-- The slow reader caches the empty project again, and the next call gets it although the flag was already served. -/
theorem raced_then_stale : ∃ s, System.Reached (.opened keyCodec emptyDb) (Step keyCodec) System.anyStep s ∧ ¬ s.Fresh := by
  have h1 := raced_reached.any.step trivial (.insert [] [] slowReader rfl rfl)
  have h2 := h1.step trivial (.hit "p" (e := ⟨[], 0⟩) rfl)
  refine ⟨_, h2, fun hfresh => ?_⟩
  have h := hfresh.monotone ⟨"p", 1, 5, ⟨["beta"], 1⟩⟩ (List.mem_cons_of_mem _ (List.mem_cons_of_mem _ List.mem_cons_self)) _
    List.mem_cons_self rfl (by decide)
  exact absurd h (by decide)

end Hoglet.Flags
