import Hoglet.Import.Events

/-! An import whose pages each hold something to import is complete, ends, and never moves its checkpoint back. -/
namespace Hoglet.Import
open Json Capture

section row
variable {ν : Type} (N : Numbers ν)

/-- The properties a row carries. -/
def OwnProperties (row : Row ν) (v : Value ν) : Prop :=
  match (row[4]? : Option (Value ν)) with
  | some (.string encoded) => readJson N encoded = some v
  | some (.object members) => v = .object members
  | _ => v = .object []

/-- The event of a row. -/
structure Own (row : Row ν) (e : Event ν) : Prop where
  uuid : e.uuid = text row 0
  event : e.event = text row 1
  distinctId : e.distinctId = text row 2
  timestamp : e.timestamp = rfc3339 (text row 3)
  properties : OwnProperties N row e.properties

/-- A page moves the checkpoint past what it read: it has something to import, with nothing of its last key left behind, unless there
is nothing past the checkpoint or nothing to import from the start. The properties to import are texts that serde_json reads. -/
structure Advances (rows : List (Row ν)) (after : WithBot Key) (page : List (Row ν)) : Prop where
  forward : page = [] ∨ (∃ row ∈ page, importable row = true) ∧
      (∀ row ∈ rows, importable row = true → (key row : WithBot Key) = last page → row ∈ page) ∨
    after = ⊥ ∧ page.length < pageRows
  readable : ∀ row ∈ page, importable row = true → ∃ v, OwnProperties N row v

/-- Every page that is read advances. -/
def Careful (rows : List (Row ν)) (act : Act ν) (s : State ν) : Prop :=
  match act, s.phase with
  | .read page, .head c => Advances N rows c.after page
  | _, _ => True

variable {N} {rows page : List (Row ν)} {after : WithBot Key}

theorem properties_own {row : Row ν} (h : ∃ v, OwnProperties N row v) : OwnProperties N row (properties N row) := by
  obtain ⟨v, hv⟩ := h
  unfold OwnProperties properties at *
  generalize (row[4]? : Option (Value ν)) = value at hv ⊢
  cases value with
  | none => rfl
  | some value =>
    cases value with
    | string encoded =>
      have hread : readJson N encoded = some v := hv
      change readJson N encoded = some ((readJson N encoded).getD (.object []))
      rw [hread, Option.getD_some]
    | null | bool | number | array | object => rfl

theorem toEvent_own {row : Row ν} (h : ∃ v, OwnProperties N row v) : Own N row (toEvent N row) :=
  ⟨rfl, rfl, rfl, rfl, properties_own h⟩

/-! Pages. -/

theorem IsPage.length_le (h : IsPage rows after page) : page.length ≤ pageRows := by
  obtain ⟨ordered, -, -, rfl⟩ := h
  exact List.length_take_le _ _

theorem IsPage.mem (h : IsPage rows after page) {row : Row ν} (hrow : row ∈ page) : row ∈ rows ∧ after < (key row : WithBot Key) := by
  obtain ⟨ordered, hperm, -, rfl⟩ := h
  have hmem := List.mem_filter.mp (hperm.mem_iff.mp (List.mem_of_mem_take hrow))
  exact ⟨hmem.1, of_decide_eq_true hmem.2⟩

/-- What a page leaves behind is not before anything in it, and a short page leaves nothing. -/
theorem IsPage.left (h : IsPage rows after page) {row : Row ν} (hrow : row ∈ rows) (hafter : after < (key row : WithBot Key))
    (hout : row ∉ page) : pageRows ≤ page.length ∧ ∀ r ∈ page, key r ≤ key row := by
  obtain ⟨ordered, hperm, hsorted, rfl⟩ := h
  have hmem := hperm.mem_iff.mpr (List.mem_filter.mpr ⟨hrow, decide_eq_true hafter⟩)
  rw [← List.take_append_drop pageRows ordered] at hmem hsorted
  have hrest := (List.mem_append.mp hmem).resolve_left hout
  constructor
  · by_contra hlt
    rw [List.length_take] at hlt
    rw [List.drop_eq_nil_of_le (by omega)] at hrest
    cases hrest
  · exact fun r hr => (List.pairwise_append.mp hsorted).2.2 r hr row hrest

theorem exists_page (rows : List (Row ν)) (after : WithBot Key) : ∃ page, IsPage rows after page := by
  refine ⟨_, (rows.filter fun row => after < (key row : WithBot Key)).mergeSort fun a b => key a ≤ key b, List.mergeSort_perm .., ?_, rfl⟩
  apply (List.pairwise_mergeSort _ _ _).imp fun h => of_decide_eq_true h
  · intro a b c hab hbc
    exact decide_eq_true ((of_decide_eq_true hab).trans (of_decide_eq_true hbc))
  · intro a b
    rw [Bool.or_eq_true, decide_eq_true_eq, decide_eq_true_eq]
    exact le_total _ _

theorem last_eq (h : ∃ row ∈ page, importable row = true) : ∃ row ∈ page, importable row = true ∧ last page = (key row : WithBot Key) := by
  obtain ⟨row, hrow, himp⟩ := h
  have hne : page.filter importable ≠ [] := List.ne_nil_of_mem (List.mem_filter.mpr ⟨hrow, himp⟩)
  have hmem := List.mem_filter.mp (List.getLast_mem hne)
  refine ⟨_, hmem.1, hmem.2, ?_⟩
  rw [last, List.getLast?_eq_some_getLast hne]
  rfl

/-! Batches. -/

theorem length_chunks_le {α : Type} {l : List α} (h : l.length ≤ pageRows) : (chunks l).length ≤ 10 := by
  rw [chunks, List.length_map, List.length_range]
  simp only [pageRows, batchEvents] at h ⊢
  omega

theorem mem_chunks {α : Type} {l : List α} {a : α} (h : a ∈ l) : a ∈ (chunks l).flatten := by
  obtain ⟨i, hi, rfl⟩ := List.mem_iff_getElem.mp h
  rw [List.mem_flatten]
  refine ⟨(l.drop (i / batchEvents * batchEvents)).take batchEvents, List.mem_map.mpr ⟨i / batchEvents, ?_, rfl⟩, ?_⟩
  · rw [List.mem_range, batchEvents]
    omega
  · rw [List.mem_iff_getElem, batchEvents]
    refine ⟨i - i / 500 * 500, ?_, ?_⟩
    · rw [List.length_take, List.length_drop]
      omega
    · have hsplit : i / 500 * 500 + (i - i / 500 * 500) = i := by omega
      simp [hsplit]

end row

/-! What holds in every state. -/
section sound
variable {ν : Type} {N : Numbers ν} {rows : List (Row ν)}

/-- The row's own event was sent. -/
def Arrived (N : Numbers ν) (sent : List (Event ν)) (row : Row ν) : Prop := ∃ e ∈ sent, Own N row e

/-- Everything to import that is not past a key was sent. -/
def ArrivedUpTo (N : Numbers ν) (rows : List (Row ν)) (sent : List (Event ν)) (after : WithBot Key) : Prop :=
  ∀ row ∈ rows, importable row = true → (key row : WithBot Key) ≤ after → Arrived N sent row

def AllArrived (N : Numbers ν) (rows : List (Row ν)) (sent : List (Event ν)) : Prop :=
  ∀ row ∈ rows, importable row = true → Arrived N sent row

/-- What a page's checkpoint stands for. -/
structure PageSound (N : Numbers ν) (rows : List (Row ν)) (s : State ν) (c : Checkpoint) (page : List (Row ν)) : Prop where
  undone : c.eventsDone = false
  after_le : s.file.after ≤ c.after
  upTo : ArrivedUpTo N rows s.sent c.after
  short : page.length < pageRows → AllArrived N rows s.sent

/-- The page under way, and which of its events are still to send. -/
structure PageOpen (N : Numbers ν) (rows : List (Row ν)) (s : State ν) (c : Checkpoint) (page : List (Row ν))
    (left : List (List (Event ν))) : Prop where
  undone : c.eventsDone = false
  same : c.after = s.file.after
  isPage : IsPage rows c.after page
  nonempty : page ≠ []
  advances : Advances N rows c.after page
  left : ∀ row ∈ page, importable row = true → toEvent N row ∈ s.sent ∨ toEvent N row ∈ left.flatten

def PhaseSound (N : Numbers ν) (rows : List (Row ν)) (s : State ν) : Prop :=
  match s.phase with
  | .stopped => True
  | .head c => c.eventsDone = false ∧ c.after = s.file.after
  | .sending c page left => PageOpen N rows s c page left
  | .saving c page => PageSound N rows s c page
  | .finishing c => c.after = s.file.after ∧ AllArrived N rows s.sent
  | .ended => AllArrived N rows s.sent

structure Sound (N : Numbers ν) (rows : List (Row ν)) (s : State ν) : Prop where
  upTo : ArrivedUpTo N rows s.sent s.file.after
  done : s.file.eventsDone = true → AllArrived N rows s.sent
  written : s.written.Pairwise (· ≤ ·)
  below : ∀ k ∈ s.written, k ≤ s.file.after
  phase : PhaseSound N rows s

theorem Arrived.mono {sent sent' : List (Event ν)} {row : Row ν} (h : Arrived N sent row) (hsent : ∀ e ∈ sent, e ∈ sent') :
    Arrived N sent' row := by
  obtain ⟨e, he, hown⟩ := h
  exact ⟨e, hsent e he, hown⟩

theorem sound_init : Sound N rows (State.init ν) := by
  refine ⟨fun row _ _ hle => absurd hle ?_, fun h => absurd h Bool.false_ne_true, List.Pairwise.nil, fun k hk => absurd hk List.not_mem_nil, trivial⟩
  exact not_le.mpr (WithBot.bot_lt_coe _)

/-- A page that was sent is arrived, and so is everything up to its last key. -/
theorem PageOpen.sound {s : State ν} (hupTo : ArrivedUpTo N rows s.sent s.file.after) {c : Checkpoint} {page : List (Row ν)}
    (h : PageOpen N rows s c page []) : PageSound N rows s (c.next page) page := by
  have hpage : ∀ row ∈ page, importable row = true → Arrived N s.sent row := fun row hrow himp =>
    ⟨_, (h.left row hrow himp).resolve_right List.not_mem_nil, toEvent_own (h.advances.readable row hrow himp)⟩
  have hforward := h.advances.forward.resolve_left h.nonempty
  have hbefore : ∀ row ∈ rows, importable row = true → ¬ c.after < (key row : WithBot Key) → Arrived N s.sent row :=
    fun row hrow himp hlt => hupTo row hrow himp (h.same ▸ not_lt.mp hlt)
  refine ⟨h.undone, ?_, fun row hrow himp hle => ?_, fun hshort row hrow himp => ?_⟩
  · rw [← h.same]
    rcases hforward with ⟨hsome, -⟩ | ⟨hbot, -⟩
    · obtain ⟨row, hrow, -, hlast⟩ := last_eq hsome
      change c.after ≤ last page
      rw [hlast]
      exact (h.isPage.mem hrow).2.le
    · rw [hbot]
      exact bot_le
  · by_cases hlt : c.after < (key row : WithBot Key)
    · by_cases hmem : row ∈ page
      · exact hpage row hmem himp
      · obtain ⟨hfull, hleft⟩ := h.isPage.left hrow hlt hmem
        rcases hforward with ⟨hsome, htie⟩ | ⟨-, hshort⟩
        · obtain ⟨r, hr, -, hlast⟩ := last_eq hsome
          have hkey : (key row : WithBot Key) = last page :=
            le_antisymm hle (hlast ▸ WithBot.coe_le_coe.mpr (hleft r hr))
          exact absurd (htie row hrow himp hkey) hmem
        · omega
    · exact hbefore row hrow himp hlt
  · by_cases hlt : c.after < (key row : WithBot Key)
    · by_cases hmem : row ∈ page
      · exact hpage row hmem himp
      · have hfull := (h.isPage.left hrow hlt hmem).1
        omega
    · exact hbefore row hrow himp hlt

theorem Sound.step {s s' : State ν} {act : Act ν} (h : Sound N rows s) (hcareful : Careful N rows act s) (hstep : Step N rows act s s') :
    Sound N rows s' := by
  have hphase := h.phase
  rw [PhaseSound] at hphase
  cases hstep with
  | start _ hdone => exact ⟨h.upTo, h.done, h.written, h.below, hdone, rfl⟩
  | skip _ hdone => exact ⟨h.upTo, h.done, h.written, h.below, h.done hdone⟩
  | @read _ c page hhead hpage =>
    rw [hhead] at hphase
    unfold Careful at hcareful
    rw [hhead] at hcareful
    refine ⟨h.upTo, h.done, h.written, h.below, ?_⟩
    by_cases hempty : page = []
    · rw [if_pos hempty]
      refine ⟨hphase.2, fun row hrow himp => h.upTo row hrow himp ?_⟩
      by_contra hlt
      obtain ⟨hfull, -⟩ := hpage.left hrow (hphase.2 ▸ not_le.mp hlt) (hempty ▸ List.not_mem_nil)
      rw [hempty, List.length_nil] at hfull
      exact absurd hfull (by decide)
    · rw [if_neg hempty]
      refine ⟨hphase.1, hphase.2, hpage, hempty, hcareful, fun row hrow himp => .inr (mem_chunks ?_)⟩
      exact List.mem_map.mpr ⟨row, List.mem_filter.mpr ⟨hrow, himp⟩, rfl⟩
  | @capture _ c page chunk left hsending =>
    rw [hsending] at hphase
    have hsent : ∀ e ∈ s.sent, e ∈ s.sent ++ chunk := fun e he => List.mem_append_left _ he
    refine ⟨fun row hrow himp hle => (h.upTo row hrow himp hle).mono hsent, fun hdone row hrow himp => (h.done hdone row hrow himp).mono hsent,
      h.written, h.below, hphase.undone, hphase.same, hphase.isPage, hphase.nonempty, hphase.advances, fun row hrow himp => ?_⟩
    rcases hphase.left row hrow himp with hin | hin
    · exact .inl (hsent _ hin)
    · rw [List.flatten_cons, List.mem_append] at hin
      exact hin.imp_left fun hin => List.mem_append_right _ hin
  | @sent _ c page hsending =>
    rw [hsending] at hphase
    have hsound := hphase.sound h.upTo
    exact ⟨h.upTo, h.done, h.written, h.below, hsound.undone, hsound.after_le, hsound.upTo, hsound.short⟩
  | @save _ c page hsaving =>
    rw [hsaving] at hphase
    refine ⟨hphase.upTo, fun hdone => ?_, ?_, fun k hk => ?_, ?_⟩
    · exact absurd hdone (by rw [hphase.undone]; exact Bool.false_ne_true)
    · rw [List.pairwise_append]
      exact ⟨h.written, List.pairwise_singleton _ _, fun k hk k' hk' => List.mem_singleton.mp hk' ▸ (h.below k hk).trans hphase.after_le⟩
    · rcases List.mem_append.mp hk with hk | hk
      · exact (h.below k hk).trans hphase.after_le
      · exact (List.mem_singleton.mp hk).le
    · by_cases hshort : page.length < pageRows
      · simp only [PhaseSound, if_pos hshort]
        exact ⟨trivial, hphase.short hshort⟩
      · simp only [PhaseSound, if_neg hshort]
        exact ⟨hphase.undone, trivial⟩
  | @finish _ c hfinishing =>
    rw [hfinishing] at hphase
    obtain ⟨hsame, hall⟩ := hphase
    exact ⟨fun row hrow himp _ => hall row hrow himp, fun _ => hall, h.written, fun k hk => hsame ▸ h.below k hk, hall⟩
  | stop arrived =>
    have hsent : ∀ e ∈ s.sent, e ∈ s.sent ++ (List.replicate arrived s.phase.request).flatten := fun e he => List.mem_append_left _ he
    exact ⟨fun row hrow himp hle => (h.upTo row hrow himp hle).mono hsent, fun hdone row hrow himp => (h.done hdone row hrow himp).mono hsent,
      h.written, h.below, trivial⟩

theorem Run.sound {s s' : State ν} (h : Run N rows (Careful N rows) s s') (hs : Sound N rows s) : Sound N rows s' := by
  induction h with
  | refl => exact hs
  | tail _ hcareful hstep ih => exact ih.step hcareful hstep

end sound

/-! How long it takes. -/
section cost
variable {ν : Type} {N : Numbers ν} {rows : List (Row ν)}

def remaining (rows : List (Row ν)) (after : WithBot Key) : Nat := (rows.filter fun row => after < (key row : WithBot Key)).length

/-- The steps of a page at most, and as many for every row past the checkpoint. -/
def headCost (rows : List (Row ν)) (after : WithBot Key) : Nat := (remaining rows after + 1) * 20

def savingCost (rows : List (Row ν)) (after : WithBot Key) (page : List (Row ν)) : Nat :=
  if page.length < pageRows then 2 else headCost rows after + 1

def cost (rows : List (Row ν)) (s : State ν) : Nat :=
  match s.phase with
  | .stopped => headCost rows s.file.after + 1
  | .head c => headCost rows c.after
  | .sending _ page left => left.length + 1 + savingCost rows (last page) page
  | .saving c page => savingCost rows c.after page
  | .finishing _ => 1
  | .ended => 0

theorem remaining_lt {after : WithBot Key} {page : List (Row ν)} (hpage : IsPage rows after page)
    (h : ∃ row ∈ page, importable row = true) : remaining rows (last page) < remaining rows after := by
  obtain ⟨row, hrow, -, hlast⟩ := last_eq h
  obtain ⟨hin, hafter⟩ := hpage.mem hrow
  have hfilter : rows.filter (fun r => last page < (key r : WithBot Key)) =
      (rows.filter fun r => after < (key r : WithBot Key)).filter fun r => last page < (key r : WithBot Key) := by
    rw [List.filter_filter]
    apply List.filter_congr
    intro r _
    rw [Bool.eq_iff_iff, Bool.and_eq_true, decide_eq_true_eq, decide_eq_true_eq]
    exact ⟨fun hlt => ⟨hlt, (hlast ▸ hafter).trans hlt⟩, And.left⟩
  rw [remaining, remaining, hfilter]
  apply List.length_filter_lt_length_iff_exists.mpr
  refine ⟨row, List.mem_filter.mpr ⟨hin, decide_eq_true hafter⟩, ?_⟩
  rw [hlast]
  simp

theorem cost_lt {s s' : State ν} {act : Act ν} (hsuccess : ∀ arrived, act ≠ .stop arrived) (hcareful : Careful N rows act s)
    (hstep : Step N rows act s s') : cost rows s' < cost rows s := by
  cases hstep with
  | start hstopped _ =>
    simp only [cost, hstopped]
    omega
  | skip hstopped _ =>
    simp only [cost, hstopped]
    omega
  | @read _ c page hhead hpage =>
    unfold Careful at hcareful
    rw [hhead] at hcareful
    simp only [cost, hhead, headCost]
    by_cases hempty : page = []
    · rw [if_pos hempty]
      dsimp only
      omega
    · rw [if_neg hempty]
      dsimp only
      have hbatch : (batch N page).length ≤ pageRows := by
        rw [batch, List.length_map]
        exact (List.length_filter_le _ _).trans hpage.length_le
      have hchunks := length_chunks_le hbatch
      rw [savingCost]
      split_ifs with hshort
      · omega
      · rcases hcareful.forward.resolve_left hempty with ⟨hsome, -⟩ | ⟨-, hlt⟩
        · have hless := remaining_lt hpage hsome
          rw [headCost]
          omega
        · exact absurd hlt hshort
  | capture hsending =>
    simp only [cost, hsending, List.length_cons]
    omega
  | sent hsending =>
    simp only [cost, hsending, Checkpoint.next, List.length_nil]
    omega
  | @save _ c page hsaving =>
    simp only [cost, hsaving, savingCost]
    split_ifs
    · exact Nat.one_lt_two
    · exact Nat.lt_succ_self _
  | finish hfinishing =>
    simp only [cost, hfinishing]
    omega
  | stop arrived => exact absurd rfl (hsuccess arrived)

theorem Succeeds.length_le {n : Nat} {s s' : State ν} (h : Succeeds N rows (Careful N rows) n s s') : n ≤ cost rows s := by
  induction h with
  | refl => exact Nat.zero_le _
  | head hsuccess hcareful hstep _ ih =>
    have hlt := cost_lt hsuccess hcareful hstep
    omega

/-- A run that has not ended can go on. -/
theorem exists_step (N : Numbers ν) (rows : List (Row ν)) {s : State ν} (h : s.phase ≠ .ended) : ∃ act s', (∀ arrived, act ≠ .stop arrived) ∧ Step N rows act s s' := by
  cases hphase : s.phase with
  | stopped =>
    cases hdone : s.file.eventsDone with
    | true => exact ⟨.start, _, nofun, .skip hphase hdone⟩
    | false => exact ⟨.start, _, nofun, .start hphase hdone⟩
  | head c =>
    obtain ⟨page, hpage⟩ := exists_page rows c.after
    exact ⟨.read page, _, nofun, .read hphase hpage⟩
  | sending c page left =>
    cases left with
    | nil => exact ⟨.capture, _, nofun, .sent hphase⟩
    | cons chunk left => exact ⟨.capture, _, nofun, .capture hphase⟩
  | saving c page => exact ⟨.save, _, nofun, .save hphase⟩
  | finishing c => exact ⟨.save, _, nofun, .finish hphase⟩
  | ended => exact absurd hphase h

end cost

variable {ν : Type} {N : Numbers ν} {rows : List (Row ν)}

/-- Wherever runs stopped, in every state: the checkpoints never went back; once the import ended, every row to import was sent; and
calls that succeed from there on end it. -/
theorem import_complete {s : State ν} (h : Run N rows (Careful N rows) (State.init ν) s) :
    s.written.Pairwise (· ≤ ·) ∧
    (s.phase = .ended → ∀ row ∈ rows, importable row = true → ∃ e ∈ s.sent, Own N row e) ∧
    (∀ n s', Succeeds N rows (Careful N rows) n s s' → n ≤ cost rows s) ∧
    (s.phase ≠ .ended → ∃ act s', (∀ arrived, act ≠ .stop arrived) ∧ Step N rows act s s') := by
  have hsound := h.sound sound_init
  refine ⟨hsound.written, fun hended => ?_, fun n s' hrun => hrun.length_le, exists_step N rows⟩
  have hphase := hsound.phase
  rw [PhaseSound, hended] at hphase
  exact hphase

def goodRow : Row Int := [.string "u", .string "paid", .string "d", .string "2024-01-02 00:00:00.000000", .object []]

/-- One row, imported in one run. -/
theorem goodRow_complete : ∃ s, Run Small.numbers [goodRow] (Careful Small.numbers [goodRow]) (State.init Int) s ∧
    s.phase = .ended ∧ ∀ row ∈ [goodRow], importable row = true → ∃ e ∈ s.sent, Own Small.numbers row e := by
  have hchunks : chunks (batch Small.numbers [goodRow]) = [[toEvent Small.numbers goodRow]] := rfl
  have hpage : IsPage [goodRow] ⊥ [goodRow] := ⟨[goodRow], by simp, List.pairwise_singleton _ _, rfl⟩
  have hread : Advances Small.numbers [goodRow] ⊥ [goodRow] :=
    ⟨.inr (.inr ⟨rfl, by decide⟩), fun row hrow _ => ⟨.object [], List.mem_singleton.mp hrow ▸ rfl⟩⟩
  have hstart : Run Small.numbers [goodRow] (Careful Small.numbers [goodRow]) (State.init Int) _ :=
    (Run.refl _).tail (by trivial) (Step.start rfl rfl)
  have hsending := hstart.tail (by exact hread) (Step.read rfl hpage)
  rw [if_neg (List.cons_ne_nil _ _), hchunks] at hsending
  have hsaving := (hsending.tail (by trivial) (Step.capture rfl)).tail (by trivial) (Step.sent rfl)
  have hended := (hsaving.tail (by trivial) (Step.save rfl)).tail (by trivial) (Step.finish (by rw [if_pos (by decide)]))
  exact ⟨_, hended, rfl, (import_complete hended).2.1 rfl⟩

def badRow : Row Int := [.string "b", .string "", .string "d", .string "2024-01-01 00:00:00.000000", .object []]

/-- A page of rows without an event name, and then a row to import. -/
def badPage : List (Row Int) := List.replicate pageRows badRow ++ [goodRow]

private theorem badPage_read {page : List (Row Int)} (h : IsPage badPage ⊥ page) : page = List.replicate pageRows badRow := by
  have hkey : key badRow < key goodRow := by decide
  obtain ⟨ordered, hperm, hsorted, rfl⟩ := h
  have hall : badPage.filter (fun row => (⊥ : WithBot Key) < (key row : WithBot Key)) = badPage :=
    List.filter_eq_self.mpr fun row _ => decide_eq_true (WithBot.bot_lt_coe _)
  have hmem : ∀ row ∈ badPage, row = badRow ∨ row = goodRow := fun row hrow => by
    rcases List.mem_append.mp hrow with hrow | hrow
    · exact .inl (List.eq_of_mem_replicate hrow)
    · exact .inr (List.mem_singleton.mp hrow)
  have hbad : badPage.Pairwise fun a b => key a ≤ key b := by
    rw [badPage, List.pairwise_append]
    refine ⟨List.pairwise_replicate.mpr (.inr le_rfl), List.pairwise_singleton _ _, fun a ha b hb => ?_⟩
    rw [List.eq_of_mem_replicate ha, List.mem_singleton.mp hb]
    exact hkey.le
  rw [hall] at hperm
  have hordered : ordered = badPage := by
    refine List.Perm.eq_of_pairwise (fun a b ha hb hab hba => ?_) hsorted hbad hperm
    rcases hmem a (hperm.mem_iff.mp ha) with rfl | rfl <;> rcases hmem b hb with rfl | rfl
    · rfl
    · exact absurd hba (not_le.mpr hkey)
    · exact absurd hab (not_le.mpr hkey)
    · rfl
  rw [hordered, badPage, List.take_left' List.length_replicate]

/-- The import is back at the start, with nothing sent. -/
private structure Stuck (s : State Int) : Prop where
  after : s.file.after = ⊥
  undone : s.file.eventsDone = false
  sent : s.sent = []
  phase : match s.phase with
    | .stopped => True
    | .head c => c.after = ⊥ ∧ c.eventsDone = false
    | .sending c page left => page = List.replicate pageRows badRow ∧ left = [] ∧ c.eventsDone = false
    | .saving c page => c.after = ⊥ ∧ c.eventsDone = false ∧ page.length = pageRows
    | .finishing _ => False
    | .ended => False

private theorem filter_bad (n : Nat) : (List.replicate n badRow).filter importable = [] :=
  List.filter_eq_nil_iff.mpr fun row hrow => by rw [List.eq_of_mem_replicate hrow]; decide

private theorem Stuck.step {s s' : State Int} {act : Act Int} (h : Stuck s) (hstep : Step Small.numbers badPage act s s') : Stuck s' := by
  have hphase := h.phase
  cases hstep with
  | start _ => exact ⟨h.after, h.undone, h.sent, h.after, h.undone⟩
  | skip _ hdone =>
    rw [h.undone] at hdone
    cases hdone
  | @read _ c page hhead hpage =>
    rw [hhead] at hphase
    rw [hphase.1] at hpage
    have heq := badPage_read hpage
    have hbatch : batch Small.numbers page = [] := by rw [heq, batch, filter_bad, List.map_nil]
    refine ⟨h.after, h.undone, h.sent, ?_⟩
    rw [if_neg (by rw [heq]; exact List.ne_nil_of_length_pos (by rw [List.length_replicate]; decide)), hbatch]
    exact ⟨heq, rfl, hphase.2⟩
  | @capture _ c page chunk left hsending =>
    rw [hsending] at hphase
    cases hphase.2.1
  | @sent _ c page hsending =>
    rw [hsending] at hphase
    refine ⟨h.after, h.undone, h.sent, ?_, hphase.2.2, ?_⟩
    · change last page = ⊥
      rw [last, hphase.1, filter_bad]
      rfl
    · rw [hphase.1, List.length_replicate]
  | @save _ c page hsaving =>
    rw [hsaving] at hphase
    obtain ⟨hafter, hundone, hlen⟩ := hphase
    refine ⟨hafter, hundone, h.sent, ?_⟩
    rw [if_neg (by omega)]
    exact ⟨hafter, hundone⟩
  | finish hfinishing =>
    rw [hfinishing] at hphase
    cases hphase
  | stop arrived =>
    have hrequest : s.phase.request = [] := by
      cases hs : s.phase with
      | sending c page left =>
        rw [hs] at hphase
        rw [hphase.2.1]
        rfl
      | stopped | head | saving | finishing | ended => rfl
    refine ⟨h.after, h.undone, ?_, trivial⟩
    simp [hrequest, h.sent]

private theorem Stuck.runs {n : Nat} {s : State Int} (h : Stuck s) {P : Act Int → State Int → Prop} (hP : ∀ act s, P act s) :
    (∃ s', Succeeds Small.numbers badPage P n s s') ∧
      ∀ s', Succeeds Small.numbers badPage P n s s' → s'.phase ≠ .ended ∧ s'.sent = [] := by
  have hphase : s.phase ≠ .ended := fun hended => by
    have hs := h.phase
    rw [hended] at hs
    exact hs
  induction n generalizing s with
  | zero =>
    refine ⟨⟨s, .refl s⟩, fun s' hrun => ?_⟩
    cases hrun
    exact ⟨hphase, h.sent⟩
  | succ n ih =>
    have hnext : ∀ s', Stuck s' → s'.phase ≠ .ended := fun s' hs' hended => by
      have hs := hs'.phase
      rw [hended] at hs
      exact hs
    constructor
    · obtain ⟨act, s', hsuccess, hstep⟩ := exists_step Small.numbers badPage hphase
      obtain ⟨⟨s'', hrun⟩, -⟩ := ih (h.step hstep) (hnext s' (h.step hstep))
      exact ⟨s'', .head hsuccess (hP _ _) hstep hrun⟩
    · intro s' hrun
      cases hrun with
      | head _ _ hstep hrest => exact (ih (h.step hstep) (hnext _ (h.step hstep))).2 s' hrest

/-- With every call succeeding, the import reads the same page again and again, and never sends the row after it. -/
theorem badPage_never_ends : (∀ n, ∃ s, Succeeds Small.numbers badPage (fun _ _ => True) n (State.init Int) s) ∧
    ∀ n s, Succeeds Small.numbers badPage (fun _ _ => True) n (State.init Int) s → s.phase ≠ .ended ∧ s.sent = [] := by
  have hstuck : Stuck (State.init Int) := ⟨rfl, rfl, rfl, trivial⟩
  exact ⟨fun n => (hstuck.runs fun _ _ => trivial).1, fun n => (hstuck.runs fun _ _ => trivial).2⟩

end Hoglet.Import
