import Hoglet.Lake.LedgerRuns
import Hoglet.Wal.Pending

/-! The durable pipeline as one system: the log with its writer, the publisher and the lake it publishes to,
and a machine that fails and loses power under both. -/
namespace Hoglet
open Capture Hoglet.Lake Wal

/-- The log and the publisher's place in it, the process that owns the lake, and the records of the window
that the publisher has read; and what has happened: the records that syncs have made durable, and the
windows that transactions have committed, each as often as it was. -/
structure Pipeline {ν U : Type} (K : Crates ν U) (config : WalConfig) where
  site : Site (batchCodec K) config
  lake : Process ν U
  read : List (WalRecord (CapturedBatch ν U))
  durable : List (WalRecord (CapturedBatch ν U))
  published : List (List (WalRecord (CapturedBatch ν U)))

namespace Pipeline
variable {ν U : Type} [DecidableEq U] {K : Crates ν U} {config : WalConfig} {duck : Duck ν U}

inductive Move (ν U : Type) where
  | log (a : Act)
  | publish (m : Machine)
  | call (m : Machine) (c : Call ν U)
  | cut
  | start (m : Machine)

def fresh : Pipeline K config := ⟨.fresh, .down .initial, [], [], []⟩

def batches (records : List (WalRecord (CapturedBatch ν U))) : List (CapturedBatch ν U) := records.map WalRecord.batch

/-- The lake has moved, and its database holds the checkpoint. -/
def moved (s : Pipeline K config) (lake : Process ν U) : Pipeline K config :=
  { s with lake, site.checkpoint := lake.world.db.state.checkpoint }

/-- The writer and the publisher work while the process lives, each step of them between any two of the
other's. The publisher reads a window from the checkpoint, commits it, and then reclaims. A start opens the
lake and then the log, over what the end of the process or a power cut has left of them. -/
inductive Step (duck : Duck ν U) : Move ν U → Pipeline K config → Pipeline K config → Prop
  | log {s : Pipeline K config} {w : World ν U} {a : Act} {site : Site (batchCodec K) config} (hup : s.lake = .up w)
      (ha : a ∈ [Act.write, .rename, .dirsync, .create, .reclaim, .remove]) (h : Site.Step a s.site site) :
      Step duck (.log a) s { s with site }
  | sync {s : Pipeline K config} {w : World ν U} {whole : List (Rec (batchCodec K) config)} (hup : s.lake = .up w)
      (ha : s.site.log.active = some ⟨whole, []⟩) :
      Step duck (.log .sync) s { s with
        site.synced := (segBytes (batchCodec K) config whole).length
        durable := s.durable ++ spansOf s.site.log.next s.site.synced (recsAfter s.site.synced whole) }
  | read {s : Pipeline K config} {w : World ν U} {names : List Wal.Path} {maxBytes : Nat} {window : PublicationWindow}
      {records : List (WalRecord (CapturedBatch ν U))} {c : WalCursor} (hup : s.lake = .up w) (hl : Lists s.site.log.dir names)
      (hw : readWindow (batchCodec K) config (fun _ => .still names s.site.log.dir) s.site.checkpoint maxBytes = .ok window)
      (hd : drain (batchCodec K) config s.site.log.dir window = .ok (records, c)) :
      Step duck (.log .read) s { s with site.window := some c, site.removing := [], read := records }
  | publish {s : Pipeline K config} {w : World ν U} {c : WalCursor} {m : Machine} {reclaim : WalCursor → Except WalError Unit}
      {now : Int} {lake : Process ν U} (hup : s.lake = .up w) (hc : s.site.window = some c)
      (h : Process.Step K duck (.call m (.publishWindow (fun _ => .ok (batches s.read, c)) reclaim now)) (.up w) lake) :
      Step duck (.publish m) s { s.moved lake with
        site.window := none, published := s.published ++ List.replicate (lake.world.commits - w.commits) s.read }
  | call {s : Pipeline K config} {w : World ν U} {m : Machine} {c : Call ν U} {lake : Process ν U} (hup : s.lake = .up w)
      (hc : ∀ read reclaim now, c ≠ .publishWindow read reclaim now) (h : Process.Step K duck (.call m c) (.up w) lake) :
      Step duck (.call m c) s (s.moved lake)
  | cut {s : Pipeline K config} {disk : Table Lake.Path (Content ν U)} {lake : Process ν U} (h : Process.Step K duck (.cut disk) s.lake lake) :
      Step duck .cut s (s.moved lake)
  | started {s : Pipeline K config} {w : World ν U} {m : Machine} {site : Site (batchCodec K) config}
      (h : Process.Step K duck (.openLake m) s.lake (.up w)) (hsite : Site.Step .crash (s.moved (.up w)).site site) :
      Step duck (.start m) s { s.moved (.up w) with site }
  | unstarted {s : Pipeline K config} {w : World ν U} {m : Machine} (h : Process.Step K duck (.openLake m) s.lake (.down w)) :
      Step duck (.start m) s (s.moved (.down w))

/-- The publisher leaves the last sealed segment in the directory while there is no active one, and commits
nothing past a rename that is not synced. -/
def Move.Careful (move : Move ν U) (s : Pipeline K config) : Prop :=
  match move with
  | .log .remove => Act.remove.Careful s.site
  | .publish _ => Act.commit.Careful s.site
  | _ => True

/-- The window that an entry of the ledger has published. -/
def windowOf : Entry ν U → Option (List (CapturedBatch ν U))
  | .published records => some records
  | _ => none

/-- The entries of the ledger: the windows in order, and between them what calls of the run have dropped. -/
def Ledger (moves : List (Move ν U)) (published : List (List (WalRecord (CapturedBatch ν U)))) (ledger : List (Entry ν U)) : Prop :=
  ledger.filterMap windowOf = published.map batches ∧
    ∀ e ∈ ledger, windowOf e = none → ∃ m c, .call m c ∈ moves ∧ c.Enters [e]

/-- What holds in every state that careful runs reach. -/
structure Good (moves : List (Move ν U)) (s : Pipeline K config) : Prop where
  site : s.site.Kept
  synced : s.site.log.SyncedTo s.site.synced
  lake : s.lake.Kept
  checkpoint : s.site.checkpoint = s.lake.world.db.state.checkpoint
  account : s.durable = s.published.flatten ++ s.site.log.pending s.site.synced s.site.checkpoint
  window : ∀ c, s.site.window = some c →
    s.site.log.pending s.site.synced s.site.checkpoint = s.read ++ s.site.log.pending s.site.synced c
  ledger : ∃ ledger, Ledger moves s.published ledger ∧ (bookkeeping ν U).Moves ledger ∅ s.lake.world.rows

omit [DecidableEq U] in
private theorem Ledger.more {moves : List (Move ν U)} {published : List (List (WalRecord (CapturedBatch ν U)))} {ledger made : List (Entry ν U)}
    (h : Ledger moves published ledger) (move : Move ν U) (hnone : ∀ e ∈ made, windowOf e = none)
    (hmade : ∀ e ∈ made, ∃ m c, move = .call m c ∧ c.Enters [e]) : Ledger (moves ++ [move]) published (ledger ++ made) := by
  refine ⟨?_, fun e he hwindow => ?_⟩
  · rw [List.filterMap_append, h.1, List.filterMap_eq_nil_iff.mpr hnone, List.append_nil]
  · rcases List.mem_append.mp he with he | he
    · obtain ⟨m, c, hmem, henters⟩ := h.2 e he hwindow
      exact ⟨m, c, List.mem_append_left _ hmem, henters⟩
    · obtain ⟨m, c, rfl, henters⟩ := hmade e he
      exact ⟨m, c, by simp, henters⟩

omit [DecidableEq U] in
private theorem Ledger.same {moves : List (Move ν U)} {published : List (List (WalRecord (CapturedBatch ν U)))} {ledger : List (Entry ν U)}
    (h : Ledger moves published ledger) (move : Move ν U) : Ledger (moves ++ [move]) published ledger := by
  have hnone : ∀ e ∈ ([] : List (Entry ν U)), windowOf e = none := by simp
  have hmore := h.more move hnone (by simp)
  rwa [List.append_nil] at hmore

private theorem good_fresh : Good [] (fresh : Pipeline K config) where
  site := Site.kept_fresh
  synced t ht := by
    cases ht
    exact ⟨[], [], rfl, rfl⟩
  lake := ⟨World.sound_initial, rfl⟩
  checkpoint := rfl
  account := rfl
  window c hc := by cases hc
  ledger := by
    refine ⟨[], ⟨rfl, by simp⟩, ?_⟩
    rw [show (fresh : Pipeline K config).lake.world.rows = ∅ from rows_initial]
    exact .refl

omit [DecidableEq U] in
private theorem moved_site {s : Pipeline K config} {lake : Process ν U} (h : lake.world.db.state.checkpoint = s.site.checkpoint) :
    (s.moved lake).site = s.site := by
  rw [moved, h]

private theorem Good.after {moves : List (Move ν U)} {s : Pipeline K config} (h : Good moves s) (move : Move ν U) : Good (moves ++ [move]) s := by
  obtain ⟨ledger, hledger, hmoves⟩ := h.ledger
  exact ⟨h.site, h.synced, h.lake, h.checkpoint, h.account, h.window, ledger, hledger.same move, hmoves⟩

/-- The lake stands still, up to what the end of a process or an opening does. -/
private theorem Good.idle {moves : List (Move ν U)} {s : Pipeline K config} (h : Good moves s) {a : Action ν U} {lake : Process ν U}
    (hstep : Process.Step K duck a s.lake lake) (ha : ∀ m c, a ≠ .call m c) : Good moves (s.moved lake) := by
  obtain ⟨-, hstate, hrows⟩ := hstep.idle_same h.lake ha
  have hcheckpoint : lake.world.db.state.checkpoint = s.site.checkpoint := by rw [hstate, h.checkpoint]
  have hsite := moved_site hcheckpoint
  obtain ⟨ledger, hledger, hmoves⟩ := h.ledger
  exact ⟨hsite ▸ h.site, hsite ▸ h.synced, Process.kept_step h.lake hstep, rfl, hsite ▸ h.account, hsite ▸ h.window,
    ledger, hledger, (show lake.world.rows = _ from hrows) ▸ hmoves⟩

private theorem Good.log {moves : List (Move ν U)} {s : Pipeline K config} (h : Good moves s) {a : Act}
    {site : Site (batchCodec K) config} (hok : a.Careful s.site) (hstep : Site.Step a s.site site)
    (hnot : a ≠ .sync ∧ a ≠ .read ∧ a ≠ .commit) : Good moves { s with site } := by
  obtain ⟨hcheckpoint, hsynced, hpending⟩ := hstep.pending h.site h.synced hnot
  obtain ⟨ledger, hledger, hmoves⟩ := h.ledger
  have hremove : a = .remove → s.site.log.first < s.site.checkpoint.segment ∧ s.site.window = none := by
    rintro rfl
    cases hstep with
    | remove _ l hr =>
      refine ⟨h.site.inv.covered _ (by rw [hr]; exact List.mem_cons_self), ?_⟩
      by_contra hne
      obtain ⟨c, hc⟩ := Option.ne_none_iff_exists'.mp hne
      rw [(h.site.inv.window c hc).2.2] at hr
      cases hr
  have hcp := hpending s.site.checkpoint h.site.behind (fun ha => (hremove ha).1) fun _ => h.site.unpassed
  refine ⟨Site.kept_step h.site hok hstep, hsynced, h.lake, hcheckpoint.trans h.checkpoint, ?_, fun c hc => ?_, ledger, hledger, hmoves⟩
  · rw [hcheckpoint, hcp]
    exact h.account
  · have hwindow : s.site.window = some c ∧ a ≠ .crash := by cases hstep <;> simp_all
    have hc' := hpending c (h.site.inv.window c hwindow.1).2.1 (fun ha => by simp [(hremove ha).2] at hwindow) fun ha => absurd ha hwindow.2
    rw [hcheckpoint, hcp, hc']
    exact h.window c hwindow.1

/-- A sync adds to the durable records what it makes durable. -/
private theorem Good.sync {moves : List (Move ν U)} {s : Pipeline K config} (h : Good moves s)
    {whole : List (Rec (batchCodec K) config)} (ha : s.site.log.active = some ⟨whole, []⟩) :
    Good moves { s with
      site.synced := (segBytes (batchCodec K) config whole).length
      durable := s.durable ++ spansOf s.site.log.next s.site.synced (recsAfter s.site.synced whole) } := by
  obtain ⟨ledger, hledger, hmoves⟩ := h.ledger
  refine ⟨Site.kept_step h.site (a := .sync) trivial (.sync s.site whole ha), fun t ht => ?_, h.lake, h.checkpoint, ?_, fun c hc => ?_,
    ledger, hledger, hmoves⟩
  · rw [show s.site.log.active = some t from ht] at ha
    cases ha
    exact ⟨whole, [], by simp, rfl⟩
  · change _ = _ ++ s.site.log.pending (segBytes (batchCodec K) config whole).length s.site.checkpoint
    rw [Log.pending_sync h.synced h.site.inv.checkpoint ha h.site.behind, ← List.append_assoc, ← h.account]
  · obtain ⟨hplaced, hle, -⟩ := h.site.inv.window c hc
    change s.site.log.pending (segBytes (batchCodec K) config whole).length s.site.checkpoint =
      _ ++ s.site.log.pending (segBytes (batchCodec K) config whole).length c
    rw [Log.pending_sync h.synced h.site.inv.checkpoint ha h.site.behind, Log.pending_sync h.synced hplaced ha hle, h.window c hc,
      List.append_assoc]

private theorem Good.read {moves : List (Move ν U)} {s : Pipeline K config} (h : Good moves s) {names : List Wal.Path}
    {maxBytes : Nat} {window : PublicationWindow} {records : List (WalRecord (CapturedBatch ν U))} {c : WalCursor}
    (hl : Lists s.site.log.dir names)
    (hw : readWindow (batchCodec K) config (fun _ => .still names s.site.log.dir) s.site.checkpoint maxBytes = .ok window)
    (hd : drain (batchCodec K) config s.site.log.dir window = .ok (records, c)) :
    Good moves { s with site.window := some c, site.removing := [], read := records } := by
  obtain ⟨ledger, hledger, hmoves⟩ := h.ledger
  refine ⟨Site.kept_step h.site (a := .read) trivial (.read s.site names hl maxBytes window hw records c hd), h.synced, h.lake,
    h.checkpoint, h.account, fun c' hc' => ?_, ledger, hledger, hmoves⟩
  cases hc'
  exact (Log.Placed.drained h.site.inv.wellFormed h.site.inv.checkpoint hl hw hd).1

/-- A window that is dropped, or never committed. -/
private theorem Good.unread {moves : List (Move ν U)} {s : Pipeline K config} (h : Good moves s) :
    Good moves { s with site.window := none } where
  site := ⟨⟨h.site.inv.wellFormed, h.site.inv.checkpoint, fun c hc => (by cases hc), h.site.inv.removing, h.site.inv.listed,
    h.site.inv.covered, h.site.inv.renamed⟩, h.site.behind, h.site.known, h.site.unpassed⟩
  synced := h.synced
  lake := h.lake
  checkpoint := h.checkpoint
  account := h.account
  window c hc := by cases hc
  ledger := h.ledger

/-- A publication commits the window once or not at all. -/
private theorem Good.publish {moves : List (Move ν U)} {s : Pipeline K config} (h : Good moves s) {w : World ν U} {c : WalCursor} {m : Machine}
    {reclaim : WalCursor → Except WalError Unit} {now : Int} {lake : Process ν U} (hup : s.lake = .up w) (hc : s.site.window = some c)
    (hok : Act.commit.Careful s.site)
    (hstep : Process.Step K duck (.call m (.publishWindow (fun _ => .ok (batches s.read, c)) reclaim now)) (.up w) lake) :
    Good (moves ++ [.publish m]) { s.moved lake with
      site.window := none, published := s.published ++ List.replicate (lake.world.commits - w.commits) s.read } := by
  have hkept := h.lake
  have hcheckpoint := h.checkpoint
  obtain ⟨ledger, hledger, hmoves⟩ := h.ledger
  rw [hup] at hkept hcheckpoint hmoves
  have hlake : lake.Kept := Process.kept_step hkept hstep
  rcases hstep.publish_moves hkept with ⟨hcommits, hsame, hmoved⟩ | ⟨records, next, hread, hne, hcommits, hnext, hmoved⟩
  · have hsite := @moved_site ν U K config s lake (hsame.trans hcheckpoint.symm)
    have hgood : Good moves (s.moved lake) :=
      ⟨hsite ▸ h.site, hsite ▸ h.synced, hlake, rfl, hsite ▸ h.account, hsite ▸ h.window, ledger, hledger,
        List.append_nil ledger ▸ hmoves.trans hmoved⟩
    rw [hcommits, Nat.sub_self, List.replicate_zero, List.append_nil]
    exact hgood.unread.after _
  · cases hread
    rw [hcommits, Nat.add_sub_cancel_left, List.replicate_one]
    have hsite : Site.Kept { s.site with checkpoint := c, window := none } :=
      Site.kept_step h.site (a := .commit) hok (.commit s.site c hc)
    subst hnext
    refine ⟨hsite, h.synced, hlake, rfl, ?_, fun c hc => (by cases hc), ledger ++ [.published (batches s.read)], ⟨?_, ?_⟩, hmoves.trans hmoved⟩
    · change s.durable = (s.published ++ [s.read]).flatten ++ s.site.log.pending s.site.synced lake.world.db.state.checkpoint
      rw [List.flatten_append, List.flatten_singleton, List.append_assoc, ← h.window _ hc, ← h.account]
    · rw [List.filterMap_append, hledger.1, List.map_append]
      rfl
    · intro e he hwindow
      rcases List.mem_append.mp he with he | he
      · obtain ⟨m, c, hmem, henters⟩ := hledger.2 e he hwindow
        exact ⟨m, c, List.mem_append_left _ hmem, henters⟩
      · rw [List.mem_singleton.mp he] at hwindow
        cases hwindow

omit [DecidableEq U] in
private theorem enters_each {c : Call ν U} (hc : ∀ read reclaim now, c ≠ .publishWindow read reclaim now) {made : List (Entry ν U)}
    (h : c.Enters made) : ∀ e ∈ made, windowOf e = none ∧ c.Enters [e] := by
  intro e he
  cases c with
  | publishWindow read reclaim now => exact absurd rfl (hc read reclaim now)
  | compactStep =>
    obtain ⟨days, hdays, rfl⟩ := h e he
    refine ⟨rfl, fun e' he' => ⟨days, hdays, List.mem_singleton.mp he'⟩⟩
  | erase =>
    obtain ⟨day, rfl⟩ := h e he
    exact ⟨rfl, fun e' he' => ⟨day, List.mem_singleton.mp he'⟩⟩
  | sweepGraveyard | updateTables => exact absurd (h ▸ he) List.not_mem_nil

private theorem Good.call {moves : List (Move ν U)} {s : Pipeline K config} (h : Good moves s) {w : World ν U} {m : Machine} {c : Call ν U}
    {lake : Process ν U} (hup : s.lake = .up w) (hc : ∀ read reclaim now, c ≠ .publishWindow read reclaim now)
    (hstep : Process.Step K duck (.call m c) (.up w) lake) : Good (moves ++ [.call m c]) (s.moved lake) := by
  have hkept := h.lake
  have hcheckpoint := h.checkpoint
  obtain ⟨ledger, hledger, hmoves⟩ := h.ledger
  rw [hup] at hkept hcheckpoint hmoves
  obtain ⟨hsame, made, hmade, hmoved⟩ := hstep.call_moves hkept hc
  have hsite := @moved_site ν U K config s lake (hsame.trans hcheckpoint.symm)
  have heach := enters_each hc hmade
  exact ⟨hsite ▸ h.site, hsite ▸ h.synced, Process.kept_step hkept hstep, rfl, hsite ▸ h.account, hsite ▸ h.window, ledger ++ made,
    hledger.more _ (fun e he => (heach e he).1) fun e he => ⟨m, c, rfl, (heach e he).2⟩, hmoves.trans hmoved⟩

theorem good_step {moves : List (Move ν U)} {move : Move ν U} {s s' : Pipeline K config} (h : Good moves s) (hok : move.Careful s)
    (hstep : Step duck move s s') : Good (moves ++ [move]) s' := by
  cases hstep with
  | @log _ w a site hup ha hs =>
    refine (h.log ?_ hs ?_).after _
    · cases a <;> first | exact trivial | exact hok | simp at ha
    · cases a <;> simp at ha ⊢
  | sync hup ha => exact (h.sync ha).after _
  | read hup hl hw hd => exact (h.read hl hw hd).after _
  | publish hup hc hs => exact h.publish hup hc hok hs
  | call hup hc hs => exact h.call hup hc hs
  | cut hs => exact (h.idle hs (by simp)).after _
  | started hs hsite => exact ((h.idle hs (by simp)).log (a := .crash) trivial hsite (by simp)).after _
  | unstarted hs => exact (h.idle hs (by simp)).after _

private theorem good_run {moves : List (Move ν U)} {s : Pipeline K config} (h : System.Run fresh (Step duck) Move.Careful moves s) :
    Good moves s := by
  induction h with
  | start => exact good_fresh
  | step _ hok hstep ih => exact good_step ih hok hstep

/-- In every careful run, whatever fails and wherever the process ends, the durable records are those that
committed windows have applied, each once and in the order of the log, and then those still pending at the
checkpoint; a window is empty only when no sealed record is pending; and what the lake holds is what the
committed windows have put in, less what calls of the run have dropped since. -/
theorem exactly_once {moves : List (Move ν U)} {s : Pipeline K config} (h : System.Run fresh (Step duck) Move.Careful moves s) :
    s.durable = s.published.flatten ++ s.site.log.pending s.site.synced s.lake.world.db.state.checkpoint ∧
    (∀ s' : Pipeline K config, Step duck (.log .read) s s' → s'.read = [] →
      s.site.log.recordsFrom s.lake.world.db.state.checkpoint = []) ∧
    ∃ ledger, Ledger moves s.published ledger ∧ (bookkeeping ν U).Accounts ledger s.lake.world.rows := by
  have hgood := good_run h
  rw [← hgood.checkpoint]
  refine ⟨hgood.account, fun s' hstep hnil => ?_, ?_⟩
  · cases hstep with
    | log _ ha => simp at ha
    | read hup hl hw hd =>
      exact (Log.Placed.drained hgood.site.inv.wellFormed hgood.site.inv.checkpoint hl hw hd).2 hnil
  · obtain ⟨ledger, hledger, hmoves⟩ := hgood.ledger
    have haccounts := (Bookkeeping.Accounts.nil (bookkeeping ν U)).move hmoves
    exact ⟨ledger, hledger, haccounts⟩

/-- A call that drops no rows. -/
def Keeps (c : Call ν U) : Prop :=
  (∀ days today now, c ≠ .compactStep (some days) today now) ∧ ∀ projectId distinctIds now, c ≠ .erase projectId distinctIds now

omit [DecidableEq U] in
private theorem keeps_enters {c : Call ν U} (h : Keeps c) {e : Entry ν U} (henters : c.Enters [e]) : ∃ records, e = .published records := by
  cases c with
  | publishWindow read reclaim now =>
    rcases henters with h | ⟨_, records, _, _, h⟩
    · cases h
    · exact ⟨records, (List.singleton_inj.mp h)⟩
  | compactStep retentionDays today now =>
    obtain ⟨days, rfl, -⟩ := henters e (by simp)
    exact absurd rfl (h.1 days today now)
  | erase projectId distinctIds now => exact absurd rfl (h.2 projectId distinctIds now)
  | sweepGraveyard | updateTables => cases henters

/-- Every stored event comes from a durable record; and in a run without retention and erasure every event
of a durable record that is not pending has one of its project and uuid stored. -/
theorem durable_stored {moves : List (Move ν U)} {s : Pipeline K config} (h : System.Run fresh (Step duck) Move.Careful moves s) :
    (∀ row ∈ s.lake.world.rows, ∃ r ∈ s.durable, (row.projectId, row.event) ∈ recordEvents r.batch) ∧
    ((∀ m c, .call m c ∈ moves → Keeps c) → ∀ r ∈ s.durable,
      r ∈ s.site.log.pending s.site.synced s.lake.world.db.state.checkpoint ∨
      ∀ m ∈ recordEvents r.batch, ∃ row ∈ s.lake.world.rows, row.projectId = m.1 ∧ row.event.uuid = m.2.uuid) := by
  have hgood := good_run h
  have haccount := hgood.account
  rw [hgood.checkpoint] at haccount
  obtain ⟨ledger, ⟨hwindows, hdropped⟩, hmoves⟩ := hgood.ledger
  have haccounts : (bookkeeping ν U).Accounts ledger s.lake.world.rows := (Bookkeeping.Accounts.nil _).move hmoves
  constructor
  · intro row hrow
    obtain ⟨e, he, hadds⟩ := Bookkeeping.standing_subset (haccounts.entered hrow)
    cases e with
    | expired | erased => exact hadds.elim
    | published records =>
      have hmem : records ∈ s.published.map batches := by
        rw [← hwindows]
        exact List.mem_filterMap.mpr ⟨_, he, rfl⟩
      obtain ⟨window, hwindow, rfl⟩ := List.mem_map.mp hmem
      obtain ⟨batch, hbatch, hevent⟩ := List.mem_flatMap.mp (firstEvents_subset _ _ hadds.1)
      obtain ⟨r, hr, rfl⟩ := List.mem_map.mp hbatch
      refine ⟨r, ?_, hevent⟩
      rw [haccount]
      exact List.mem_append_left _ (List.mem_flatten.mpr ⟨window, hwindow, hr⟩)
  · intro hkeeps r hr
    rw [haccount, List.mem_append] at hr
    refine hr.symm.imp_right fun hr m hm => ?_
    obtain ⟨window, hwindow, hr⟩ := List.mem_flatten.mp hr
    have hmem : batches window ∈ ledger.filterMap windowOf := by
      rw [hwindows]
      exact List.mem_map_of_mem hwindow
    obtain ⟨e, he, heq⟩ := List.mem_filterMap.mp hmem
    cases e with
    | expired | erased => cases heq
    | published records =>
      cases heq
      have hin : m ∈ (batches window).flatMap recordEvents := List.mem_flatMap.mpr ⟨r.batch, List.mem_map_of_mem hr, hm⟩
      obtain ⟨m', hm', hproject, huuid⟩ := (firstEvents_covers _ [] m hin).resolve_left (by simp)
      obtain ⟨before, after, hledger⟩ := List.append_of_mem he
      have hnone : ∀ e' ∈ after, (bookkeeping ν U).drops e' = ∅ := fun e' he' => by
        cases hwindow' : windowOf e' with
        | some records =>
          cases e' with
          | published => rfl
          | expired | erased => cases hwindow'
        | none =>
          obtain ⟨m, c, hcall, henters⟩ := hdropped e' (by simp [hledger, he']) hwindow'
          obtain ⟨records, rfl⟩ := keeps_enters (hkeeps m c hcall) henters
          rfl
      obtain ⟨row, hrow, hkey⟩ := haccounts.kept before _ after hledger ⟨m'.1, eventDay m'.2, m'.2⟩ ⟨hm', rfl⟩ fun e' he' r' hr' => by
        rw [hnone e' he'] at hr'
        exact hr'.1.elim
      have hkey : (row.projectId, row.day, row.event.uuid) = (m'.1, eventDay m'.2, m'.2.uuid) := hkey
      simp only [Prod.mk.injEq] at hkey
      exact ⟨row, hrow, hkey.1.trans hproject, hkey.2.2.trans huuid⟩

/-- The record of the one published batch. -/
def sampleRec : Rec (batchCodec Crates.small) .standard where
  batch := sampleBatch
  payload := encodeBatch Crates.small sampleBatch
  decodes := by
    change decodeBatch Crates.small _ = _
    rw [decodeBatch_encodeBatch, if_pos (by decide)]
  nonempty := by decide
  fits := by decide +kernel

/-- The log between the rename of its first segment and the creation of the second. -/
def sampleLog : Log (batchCodec Crates.small) .standard := ⟨1, Nat.one_pos, [[sampleRec]], none⟩

private theorem sampleLog_read : ∃ window records,
    readWindow (batchCodec Crates.small) .standard (fun _ => .still sampleLog.names sampleLog.dir) .origin 1 = .ok window ∧
    drain (batchCodec Crates.small) .standard sampleLog.dir window = .ok (records, ⟨2, 0⟩) ∧ batches records = [sampleBatch] := by
  obtain ⟨window, records, next, hw, hd, hsplit, -, hend, hprogress⟩ := drain_position sampleLog (by simp [Log.Quiet, sampleLog])
    (c := .origin) ⟨le_refl _, .inl ⟨by decide, [], [sampleRec], rfl, rfl⟩⟩ sampleLog.lists_names Nat.one_pos
  have hone : (sampleLog.recordsFrom .origin).length = 1 := rfl
  have hpos := List.length_pos_iff.mpr (hprogress (List.ne_nil_of_length_pos (by rw [hone]; exact Nat.one_pos)))
  rw [hsplit, List.length_append] at hone
  have hnil : sampleLog.recordsFrom next = [] := List.length_eq_zero_iff.mp (by omega)
  rw [hnil, List.append_nil] at hsplit
  cases hend hnil
  exact ⟨window, records, hw, hd, hsplit ▸ rfl⟩

/-- A batch is written, synced, sealed, read and published. -/
private theorem sample_run : ∃ moves, ∃ s : Pipeline Crates.small .standard,
    System.Run fresh (Step .plain) Move.Careful moves s ∧ (∀ m c, .call m c ∈ moves → Keeps c) ∧
      s.published.map batches = [[sampleBatch]] ∧ s.site.log.pending s.site.synced s.lake.world.db.state.checkpoint = [] ∧
        ∃ r ∈ s.durable, r.batch = sampleBatch := by
  have h : (openLake .reliable).returns World.initial (fun w => (samplePublication.steps Crates.small .plain .reliable).returns w
      fun w' => w.db.state.checkpoint = .origin ∧ w'.db.state.checkpoint = ⟨2, 0⟩ ∧ w'.commits - w.commits = 1) = true := by
    decide +kernel
  obtain ⟨w, hopen, h⟩ := Steps.of_returns h
  obtain ⟨w', hpublish, h⟩ := Steps.of_returns h
  obtain ⟨hw, hw', hcommits⟩ := of_decide_eq_true h
  obtain ⟨window, records, hwindow, hdrain, hbatches⟩ := sampleLog_read
  let empty : Log (batchCodec Crates.small) .standard := ⟨1, Nat.one_pos, [], some ⟨[], []⟩⟩
  let full : Log (batchCodec Crates.small) .standard := ⟨1, Nat.one_pos, [], some ⟨[sampleRec], []⟩⟩
  let n := (segBytes (batchCodec Crates.small) .standard [sampleRec]).length
  let durable := spansOf 1 0 [sampleRec]
  let state (site : Site (batchCodec Crates.small) .standard) (read durable : List (WalRecord (CapturedBatch Int Small.Uuid))) :
      Pipeline Crates.small .standard := ⟨site, .up w, read, durable, []⟩
  have hstart : Step .plain (.start .reliable) fresh (state ⟨empty, 0, false, .origin, none, []⟩ [] []) := by
    have hsite : ((fresh : Pipeline Crates.small .standard).moved (.up w)).site = Site.fresh := moved_site hw
    exact .started (.opened hopen) (hsite ▸ .crash Site.fresh _ 0 (.cut 0 (le_refl _)))
  have hwrite : Step .plain (.log .write) (state ⟨empty, 0, false, .origin, none, []⟩ [] []) (state ⟨full, 0, false, .origin, none, []⟩ [] []) :=
    .log rfl (by simp) (.write _ full (.finish _ [] sampleRec 0 rfl) rfl rfl)
  have hsync : Step .plain (.log .sync) (state ⟨full, 0, false, .origin, none, []⟩ [] []) (state ⟨full, n, false, .origin, none, []⟩ [] durable) :=
    .sync rfl (show full.active = some ⟨[sampleRec], []⟩ from rfl)
  have hrename : Step .plain (.log .rename) (state ⟨full, n, false, .origin, none, []⟩ [] durable)
      (state ⟨sampleLog, n, true, .origin, none, []⟩ [] durable) :=
    .log rfl (by simp) (.rename _ sampleLog (.rename full [sampleRec] (by simp) rfl) rfl fun t ht => by cases ht; exact congrArg List.length (List.append_nil _).symm)
  have hdirsync : Step .plain (.log .dirsync) (state ⟨sampleLog, n, true, .origin, none, []⟩ [] durable)
      (state ⟨sampleLog, n, false, .origin, none, []⟩ [] durable) := .log rfl (by simp) (.dirsync _)
  have hread : Step .plain (.log .read) (state ⟨sampleLog, n, false, .origin, none, []⟩ [] durable)
      (state ⟨sampleLog, n, false, .origin, some ⟨2, 0⟩, []⟩ records durable) := .read rfl sampleLog.lists_names hwindow hdrain
  have hcommitted : Process.Step Crates.small .plain
      (.call .reliable (.publishWindow (fun _ => .ok (batches records, ⟨2, 0⟩)) (fun _ => .ok ()) 0)) (.up w) (.up w') :=
    hbatches.symm ▸ .returned hpublish
  have hpublished : Step .plain (.publish .reliable) (state ⟨sampleLog, n, false, .origin, some ⟨2, 0⟩, []⟩ records durable)
      { (state ⟨sampleLog, n, false, .origin, some ⟨2, 0⟩, []⟩ records durable).moved (.up w') with
        site.window := none, published := List.replicate (w'.commits - w.commits) records } :=
    .publish rfl rfl hcommitted
  have hsealed : System.Run fresh (Step .plain) Move.Careful _ (state ⟨sampleLog, n, true, .origin, none, []⟩ [] durable) :=
    .step (.step (.step (.step .start (by exact trivial) hstart) (by exact trivial) hwrite) (by exact trivial) hsync) (by exact trivial) hrename
  have hrun := ((hsealed.step (by exact trivial) hdirsync).step (by exact trivial) hread).step (by intro hr; cases hr) hpublished
  refine ⟨_, _, hrun, ?_, ?_, ?_, _, List.mem_singleton.mpr rfl, rfl⟩
  · simp
  · change List.map batches (List.replicate (w'.commits - w.commits) records) = _
    rw [hcommits]
    exact congrArg (fun b => [b]) hbatches
  · change sampleLog.pending n w'.db.state.checkpoint = []
    rw [hw']
    rfl

theorem sample_once : ∃ s : Pipeline Crates.small .standard, s.published.map batches = [[sampleBatch]] ∧
    s.durable = s.published.flatten := by
  obtain ⟨moves, s, hrun, -, hpublished, hpending, -⟩ := sample_run
  have h := (exactly_once hrun).1
  rw [hpending, List.append_nil] at h
  exact ⟨s, hpublished, h⟩

theorem sample_stored : ∃ s : Pipeline Crates.small .standard, s.published.map batches = [[sampleBatch]] ∧
    ∃ row ∈ s.lake.world.rows, row.projectId = "p" ∧ row.event.uuid = Projections.linkEvent.uuid := by
  obtain ⟨moves, s, hrun, hkeeps, hpublished, hpending, r, hr, hsample⟩ := sample_run
  have hrow := ((durable_stored hrun).2 hkeeps r hr).resolve_left (by simp [hpending]) ("p", Projections.linkEvent)
    (by rw [hsample]; exact List.mem_singleton.mpr rfl)
  exact ⟨s, hpublished, hrow⟩

end Pipeline
end Hoglet
