import Hoglet.Wal.Log
import Hoglet.Wal.ReadBack

/-! Windowed reading of the sealed log: `SealedRecords`, a lazy reader that normalises its cursor over
segment ends, and `PublicationWindow`, which cuts it by bytes. -/
namespace Hoglet.Wal

/-- Where a `SealedRecords` iterator stands: the segments from `segment_index` on, the unread bytes of
the open file, and the next unread cursor. -/
structure Reader where
  segments : List Nat
  file : Option Bytes
  next : WalCursor
  deriving DecidableEq, Repr

structure SealedRecords where
  reader : Reader
  terminalCursor : Option WalCursor
  finished : Bool
  deriving DecidableEq, Repr

structure PublicationWindow where
  records : SealedRecords
  checkpoint : WalCursor
  maxBytes : Nat
  framedBytes : Nat
  finished : Bool
  deriving DecidableEq, Repr

section reader
variable {β : Type} (C : Codec β) (config : WalConfig)

def SealedRecords.openOnce (g : Glimpse) (cursor : WalCursor) : Except WalError SealedRecords :=
  match discoverSegmentLayout g.names with
  | .error error => .error error
  | .ok layout =>
    match validateCursor C config layout g.scanned g.bounded cursor with
    | .error error => .error error
    | .ok _ => .ok {
        reader := ⟨layout.sealed.filter (cursor.segment ≤ ·), none, cursor⟩
        terminalCursor := (layout.active.map fun sequence => ⟨sequence, 0⟩).or layout.nextSegmentCursor
        finished := false }

def SealedRecords.open_ (attempts : Nat → Glimpse) (cursor : WalCursor) : Except WalError SealedRecords :=
  retryLayoutRace fun i => SealedRecords.openOnce C config (attempts i) cursor

/-- The file the reader reads next: the one it has open, or the first of its segments, opened at the
cursor when the cursor lies in it and at its start otherwise. -/
def Reader.openNext (dir : Dir) (sequence : Nat) (file : Option Bytes) (next : WalCursor) :
    Except WalError (Bytes × WalCursor) :=
  match file with
  | some rest => .ok (rest, next)
  | none =>
    match openFile dir (sealedPath sequence) with
    | .error error => .error error
    | .ok bytes =>
      let offset := if sequence = next.segment then next.byteOffset else 0
      .ok (bytes.drop offset, ⟨sequence, offset⟩)

/-- The loop of `next_record`, one round for each segment it runs to the end of. -/
def nextRecord (dir : Dir) (terminal : Option WalCursor) :
    List Nat → Option Bytes → WalCursor → Except WalError (Option (WalRecord β) × Reader)
  | [], file, next => .ok (none, ⟨[], file, next⟩)
  | sequence :: later, file, next =>
    match Reader.openNext dir sequence file next with
    | .error error => .error error
    | .ok (rest, start) =>
      match readRecord C config sequence start.byteOffset rest with
      | .error error => .error error
      | .ok (some (batch, framed)) =>
        let stop : WalCursor := ⟨start.segment, start.byteOffset + framed⟩
        let record : WalRecord β := ⟨batch, ⟨start, stop, framed⟩⟩
        if rest.drop framed = [] then
          let normalized := (later.head?.map fun sequence => ⟨sequence, 0⟩).or terminal
          .ok (some record, ⟨later, none, normalized.getD stop⟩)
        else .ok (some record, ⟨sequence :: later, some (rest.drop framed), stop⟩)
      | .ok none =>
        let normalized := (later.head?.map fun sequence => ⟨sequence, 0⟩).or terminal
        nextRecord dir terminal later none (normalized.getD start)

/-- `Iterator::next` of `SealedRecords`. -/
def SealedRecords.nextItem (dir : Dir) (records : SealedRecords) :
    Option (Except WalError (WalRecord β)) × SealedRecords :=
  if records.finished then (none, records)
  else
    let r := records.reader
    match nextRecord C config dir records.terminalCursor r.segments r.file r.next with
    | .ok (some record, reader) => (some (.ok record), { records with reader })
    | .ok (none, reader) => (none, { records with reader, finished := true })
    | .error error => (some (.error error), { records with finished := true })

/-- `Iterator::next` of `PublicationWindow`. -/
def PublicationWindow.nextItem (dir : Dir) (window : PublicationWindow) :
    Option (Except WalError (WalRecord β)) × PublicationWindow :=
  if window.finished then (none, window)
  else match window.records.nextItem C config dir with
    | (some (.error error), records) => (some (.error error), { window with records, finished := true })
    | (none, records) =>
      (none, { window with records, checkpoint := records.reader.next, finished := true })
    | (some (.ok record), records) =>
      if 0 < window.framedBytes ∧
          window.maxBytes < saturatingAdd window.framedBytes record.span.framedBytes then
        (none, { window with records, finished := true })
      else
        (some (.ok record), { window with
          records, checkpoint := records.reader.next
          framedBytes := window.framedBytes + record.span.framedBytes })

/-- `read_window` of the log and of the publisher's reader handle. -/
def readWindow (attempts : Nat → Glimpse) (cursor : WalCursor) (maxBytes : Nat) :
    Except WalError PublicationWindow :=
  if maxBytes = 0 then .error .invalidConfig
  else match SealedRecords.open_ C config attempts cursor with
    | .error error => .error error
    | .ok records => .ok ⟨records, cursor, maxBytes, 0, false⟩

/-- Takes items until the window ends, the directory seen by the `i`-th call being `dirs i`; the
result is the records and the window's `next_cursor`, `none` when the fuel was too little. -/
def drainFrom (dirs : Nat → Dir) :
    Nat → Nat → PublicationWindow → Option (Except WalError (List (WalRecord β) × WalCursor))
  | 0, _, _ => none
  | fuel + 1, i, window =>
    match window.nextItem C config (dirs i) with
    | (none, window) => some (.ok ([], window.checkpoint))
    | (some (.error error), _) => some (.error error)
    | (some (.ok record), window) =>
      match drainFrom dirs fuel (i + 1) window with
      | some (.ok (records, cursor)) => some (.ok (record :: records, cursor))
      | other => other

/-- `for record in window.by_ref()` over a quiet directory. The bytes of the window's segments are
fuel enough, since every record takes bytes. -/
def drain (dir : Dir) (window : PublicationWindow) : Except WalError (List (WalRecord β) × WalCursor) :=
  let bytes := (window.records.reader.segments.map fun s => ((dir (sealedPath s)).getD []).length).sum
  (drainFrom C config (fun _ => dir) (bytes + 1) 0 window).getD (.error (.io .other))

/-- Reads one window at each budget in turn, restarting at the cursor the previous one ended with. -/
def readWindows (names : Nat → List Path) (dir : Dir) :
    List Nat → Nat → WalCursor → Except WalError (List (List (WalRecord β) × WalCursor))
  | [], _, _ => .ok []
  | budget :: budgets, i, cursor => do
    let window ← readWindow C config (fun _ => Glimpse.still (names i) dir) cursor budget
    let (records, cursor) ← drain C config dir window
    let later ← readWindows names dir budgets (i + 1) cursor
    return (records, cursor) :: later

end reader

section spec
variable {β : Type} {C : Codec β} {config : WalConfig}
variable (content : Nat → List (Rec C config)) (stop : Nat)

/-- Where an unfinished reader of the segments below `stop` may stand: at a record boundary of the
first of its segments, with that file unopened or open there, or past them all. -/
def Reader.Stands (r : Reader) : Prop :=
  (r.next.segment < stop ∧ r.segments = List.range' r.next.segment (stop - r.next.segment) ∧
    ∃ before after, content r.next.segment = before ++ after ∧
      r.next.byteOffset = (segBytes C config before).length ∧
      (r.file = none ∨ r.file = some (segBytes C config after))) ∨
  (r = ⟨[], none, ⟨stop, 0⟩⟩)

/-- The sealed files from `first` to `stop` are on disk. -/
def OnDisk (first : Nat) (dir : Dir) : Prop :=
  ∀ s, first ≤ s → s < stop → dir (sealedPath s) = some (segBytes C config (content s))

/-- The start of a segment, or of a record in it. -/
def AtRecord (content : Nat → List (Rec C config)) (c : WalCursor) : Prop :=
  c.byteOffset = 0 ∨ ∃ before rec after, content c.segment = before ++ rec :: after ∧
    c.byteOffset = (segBytes C config before).length

variable {content stop}

private theorem range'_segments {s : Nat} (h : s < stop) :
    List.range' s (stop - s) = s :: List.range' (s + 1) (stop - (s + 1)) := by
  rw [show stop - s = (stop - (s + 1)) + 1 by omega, List.range'_succ]

private theorem normalized_eq {s : Nat} (h : s < stop) :
    ((List.range' (s + 1) (stop - (s + 1))).head?.map fun sequence => (⟨sequence, 0⟩ : WalCursor)).or
      (some ⟨stop, 0⟩) = some ⟨s + 1, 0⟩ := by
  by_cases hs : s + 1 < stop
  · rw [range'_segments hs]
    simp
  · obtain rfl : stop = s + 1 := by omega
    simp

private theorem stands_next {s : Nat} (h : s < stop) :
    Reader.Stands content stop ⟨List.range' (s + 1) (stop - (s + 1)), none, ⟨s + 1, 0⟩⟩ := by
  by_cases hs : s + 1 < stop
  · exact .inl ⟨hs, rfl, [], _, rfl, rfl, .inl rfl⟩
  · obtain rfl : stop = s + 1 := by omega
    exact .inr (by simp)

/-- One call of `next_record`: the first record left, or the terminal cursor when none is. -/
theorem nextRecord_spec {first : Nat} {dir : Dir} (hd : OnDisk content stop first dir) (r : Reader)
    (hr : r.Stands content stop) (hf : first ≤ r.next.segment) :
    ∃ r', r'.Stands content stop ∧ r.next.segment ≤ r'.next.segment ∧
      match recordsFrom content stop r.next with
      | [] => nextRecord C config dir (some ⟨stop, 0⟩) r.segments r.file r.next = .ok (none, r') ∧
          r'.next = ⟨stop, 0⟩
      | w :: ws => nextRecord C config dir (some ⟨stop, 0⟩) r.segments r.file r.next = .ok (some w, r') ∧
          recordsFrom content stop r'.next = ws ∧ AtRecord content r'.next := by
  obtain ⟨segments, file, s, offset⟩ := r
  -- the recursion is on the segments left; each empty or finished one hands over to the next
  induction hn : stop - s generalizing segments file s offset with
  | zero =>
    rcases hr with ⟨hlt, _⟩ | he
    · simp only at hlt
      omega
    · obtain ⟨rfl, rfl, rfl, rfl⟩ : segments = [] ∧ file = none ∧ s = stop ∧ offset = 0 := by simpa using he
      exact ⟨_, .inr rfl, le_refl _, by simp [recordsFrom_stop, nextRecord]⟩
  | succ n ih =>
    rcases hr with ⟨hlt, hsegs, before, after, hc, ho, hfile⟩ | he
    swap
    · obtain ⟨rfl, rfl, rfl, rfl⟩ : segments = [] ∧ file = none ∧ s = stop ∧ offset = 0 := by simpa using he
      omega
    simp only at hlt hsegs hc ho hfile hf
    subst hsegs ho
    have hopen : Reader.openNext dir s file ⟨s, (segBytes C config before).length⟩ =
        .ok (segBytes C config after, ⟨s, (segBytes C config before).length⟩) := by
      rcases hfile with rfl | rfl
      · simp [Reader.openNext, openFile, hd s hf hlt, hc]
      · rfl
    rw [recordsFrom_position content hlt hc]
    simp only [range'_segments hlt, nextRecord, hopen]
    cases after with
    | nil =>
      obtain ⟨r', hs', hle, hm⟩ := ih _ _ _ _ (stands_next hlt) (by simp only; omega) (by omega)
      simp only [recordsFrom_start content (show s + 1 ≤ stop by omega)] at hm
      refine ⟨r', hs', by simp only at hle ⊢; omega, ?_⟩
      simp only [segBytes_nil, readRecord_nil, normalized_eq hlt, Option.getD_some, spansOf, List.nil_append]
      exact hm
    | cons rec after =>
      simp only [segBytes_cons, readRecord_frame, spansOf, List.cons_append, Rec.framedBytes, List.drop_left]
      have hc' : content s = (before ++ [rec]) ++ after := by simp [hc]
      have hlen : (segBytes C config before).length + rec.frame.length =
          (segBytes C config (before ++ [rec])).length := by simp
      by_cases ha : after = []
      · subst ha
        refine ⟨_, stands_next hlt, by simp, ?_⟩
        simp [normalized_eq hlt, recordsFrom_start content (show s + 1 ≤ stop by omega), spansOf, AtRecord]
      · refine ⟨⟨s :: List.range' (s + 1) (stop - (s + 1)), some (segBytes C config after),
          ⟨s, (segBytes C config before).length + rec.frame.length⟩⟩, ?_, le_refl _, ?_⟩
        · exact .inl ⟨hlt, (range'_segments hlt).symm, _, _, hc', hlen, .inr rfl⟩
        · simp only [segBytes_eq_nil, ha, if_false, true_and, hlen]
          obtain ⟨r, rs, rfl⟩ := List.exists_cons_of_ne_nil ha
          exact ⟨recordsFrom_position content hlt hc', .inr ⟨_, r, rs, hc', rfl⟩⟩

theorem Reader.Stands.boundary {r : Reader} (h : r.Stands content stop) : Boundary content stop r.next := by
  rcases h with ⟨hlt, _, before, after, hc, ho, _⟩ | rfl
  · exact .inl ⟨hlt, before, after, hc, ho⟩
  · exact .inr rfl

/-- An unfinished window over the segments below `stop` whose checkpoint is where its reader stands. -/
structure PublicationWindow.Stands (content : Nat → List (Rec C config)) (stop first : Nat)
    (w : PublicationWindow) : Prop where
  running : w.finished = false
  reading : w.records.finished = false
  terminal : w.records.terminalCursor = some ⟨stop, 0⟩
  stands : w.records.reader.Stands content stop
  checkpoint : w.checkpoint = w.records.reader.next
  after : first ≤ w.checkpoint.segment

/-- One call of the window's iterator: it ends at the terminal cursor when no record is left, it ends
where it stands when the budget refuses the next one, and else it yields the next one. -/
theorem PublicationWindow.nextItem_spec {first : Nat} {dir : Dir} (hd : OnDisk content stop first dir)
    (w : PublicationWindow) (h : w.Stands content stop first) :
    match recordsFrom content stop w.checkpoint with
    | [] => ∃ w', w.nextItem C config dir = (none, w') ∧ w'.checkpoint = ⟨stop, 0⟩
    | r :: rs =>
      (0 < w.framedBytes ∧ ∃ w', w.nextItem C config dir = (none, w') ∧ w'.checkpoint = w.checkpoint) ∨
      ∃ w', w.nextItem C config dir = (some (.ok r), w') ∧ w'.Stands content stop first ∧
        recordsFrom content stop w'.checkpoint = rs ∧ AtRecord content w'.checkpoint := by
  obtain ⟨hrun, hread, hterm, hstands, hck, hafter⟩ := h
  obtain ⟨r', hs', hle, hm⟩ := nextRecord_spec hd w.records.reader hstands (hck ▸ hafter)
  rw [hck]
  cases hrec : recordsFrom content stop w.records.reader.next with
  | nil =>
    simp only [hrec] at hm
    obtain ⟨hn, hnext⟩ := hm
    have hitem : w.records.nextItem C config dir =
        (none, { w.records with reader := r', finished := true }) := by
      simp [SealedRecords.nextItem, hread, hterm, hn]
    simp only [PublicationWindow.nextItem, hrun, hitem, Bool.false_eq_true, if_false]
    exact ⟨_, rfl, hnext⟩
  | cons r rs =>
    simp only [hrec] at hm
    obtain ⟨hn, hrest, hat⟩ := hm
    have hitem : w.records.nextItem C config dir =
        (some (.ok r), { w.records with reader := r' }) := by
      simp [SealedRecords.nextItem, hread, hterm, hn]
    simp only [PublicationWindow.nextItem, hrun, hitem, Bool.false_eq_true, if_false]
    by_cases hb : 0 < w.framedBytes ∧ w.maxBytes < saturatingAdd w.framedBytes r.span.framedBytes
    · exact .inl ⟨hb.1, _, if_pos hb, hck⟩
    · refine .inr ⟨_, if_neg hb, ⟨rfl, hread, hterm, hs', rfl, ?_⟩, hrest, hat⟩
      rw [hck] at hafter
      exact hafter.trans hle

/-- A whole window: it yields a prefix of the records from its checkpoint, at least one if there is
one, and its `next_cursor` is where the rest begins, normalised to the terminal cursor at the end. -/
theorem drainFrom_spec {first : Nat} {dirs : Nat → Dir} (hd : ∀ i, OnDisk content stop first (dirs i))
    (fuel i : Nat) (w : PublicationWindow) (h : w.Stands content stop first)
    (hfuel : (recordsFrom content stop w.checkpoint).length < fuel) :
    ∃ ws ck, drainFrom C config dirs fuel i w = some (.ok (ws, ck)) ∧
      recordsFrom content stop w.checkpoint = ws ++ recordsFrom content stop ck ∧
      Boundary content stop ck ∧ first ≤ ck.segment ∧
      (recordsFrom content stop ck = [] → ck = ⟨stop, 0⟩) ∧
      (w.framedBytes = 0 → recordsFrom content stop w.checkpoint ≠ [] → ws ≠ []) ∧
      (ck = w.checkpoint ∨ AtRecord content ck) := by
  induction fuel generalizing i w with
  | zero => omega
  | succ fuel ih =>
    have hstep := w.nextItem_spec (hd i) h
    have hle : first ≤ stop := by
      have := h.after
      rcases h.stands with ⟨hlt, _⟩ | he
      · rw [h.checkpoint] at this
        omega
      · rwa [h.checkpoint, he] at this
    cases hrec : recordsFrom content stop w.checkpoint with
    | nil =>
      simp only [hrec] at hstep
      obtain ⟨w', hn, hck⟩ := hstep
      refine ⟨[], ⟨stop, 0⟩, by rw [drainFrom, hn, ← hck], ?_, .inr rfl, hle, fun _ => rfl, by simp, .inr (.inl rfl)⟩
      rw [recordsFrom_stop, List.append_nil]
    | cons r rs =>
      simp only [hrec] at hstep
      rcases hstep with ⟨hpos, w', hn, hck⟩ | ⟨w', hn, hw', hrest, hat⟩
      · refine ⟨[], w.checkpoint, by rw [drainFrom, hn, ← hck], by simp [hrec], ?_, h.after, by simp [hrec], ?_, .inl rfl⟩
        · rw [h.checkpoint]
          exact h.stands.boundary
        · intro h0
          omega
      · rw [hrec, List.length_cons] at hfuel
        obtain ⟨ws, ck, hdrain, hsplit, hb, hf, ht, _, hn'⟩ := ih (i + 1) w' hw' (by rw [hrest]; omega)
        refine ⟨r :: ws, ck, by simp only [drainFrom, hn, hdrain], ?_, hb, hf, ht, by simp, .inr ?_⟩
        swap
        · rcases hn' with rfl | hn'
          · exact hat
          · exact hn'
        rw [List.cons_append, ← hsplit, hrest]

end spec

section log
variable {β : Type} {C : Codec β} {config : WalConfig}

theorem Log.onDisk (L : Log C config) : OnDisk L.content L.next L.first L.dir :=
  fun _ h hs => L.dir_sealed h hs

theorem Log.terminal (L : Log C config) (h : L.active = none → L.sealed ≠ []) :
    (L.layout.active.map fun sequence => (⟨sequence, 0⟩ : WalCursor)).or L.layout.nextSegmentCursor =
      some ⟨L.next, 0⟩ := by
  cases ha : L.active with
  | some t => simp [Log.layout, ha]
  | none =>
    rw [L.nextSegmentCursor_eq ha (h ha)]
    simp [Log.layout, ha]

theorem Log.Quiet.sealed_ne {L : Log C config} (h : L.Quiet) (ha : L.active = none) : L.sealed ≠ [] := by
  simpa only [Log.Quiet, ha] using h

theorem filter_range' (first n s : Nat) (h : first ≤ s) :
    (List.range' first n).filter (s ≤ ·) = List.range' s (first + n - s) := by
  induction n generalizing first with
  | zero => simp [show first - s = 0 by omega]
  | succ n ih =>
    rw [List.range'_succ, List.filter_cons]
    obtain rfl | hlt := h.eq_or_lt
    · simp only [le_refl, decide_true, if_true]
      rw [show first + (n + 1) - first = n + 1 by omega, List.range'_succ]
      congr 1
      rw [List.filter_eq_self]
      simp only [List.mem_range'_1, decide_eq_true_eq]
      omega
    · rw [if_neg (by simpa using hlt), ih (first + 1) hlt]
      congr 1
      omega

/-- Opening a reader at a position of a quiet log. -/
theorem open_position (L : Log C config) (hq : L.Quiet) {c : WalCursor} (hc : L.Position c)
    {names : List Path} (hl : Lists L.dir names) :
    SealedRecords.open_ C config (fun _ => Glimpse.still names L.dir) c =
      .ok ⟨⟨List.range' c.segment (L.next - c.segment), none, c⟩, some ⟨L.next, 0⟩, false⟩ := by
  obtain ⟨valid, hv, _⟩ := L.validateCursor_position hq hc
  have hsegs : L.layout.sealed.filter (c.segment ≤ ·) = List.range' c.segment (L.next - c.segment) :=
    filter_range' _ _ _ hc.1
  simp only [SealedRecords.open_, retryLayoutRace_const, SealedRecords.openOnce, Glimpse.still,
    L.discover hl, hv, L.terminal hq.sealed_ne, hsegs]

/-- Opening a window at a position of a quiet log. -/
theorem readWindow_position (L : Log C config) (hq : L.Quiet) {c : WalCursor} (hc : L.Position c)
    {names : List Path} (hl : Lists L.dir names) {maxBytes : Nat} (hm : 0 < maxBytes) :
    ∃ w, readWindow C config (fun _ => Glimpse.still names L.dir) c maxBytes = .ok w ∧
      w.Stands L.content L.next L.first ∧ w.checkpoint = c ∧ w.framedBytes = 0 := by
  refine ⟨⟨⟨⟨List.range' c.segment (L.next - c.segment), none, c⟩, some ⟨L.next, 0⟩, false⟩, c, maxBytes, 0, false⟩,
    ?_, ?_, rfl, rfl⟩
  · simp only [readWindow, open_position L hq hc hl, show maxBytes ≠ 0 by omega, if_false]
  · refine ⟨rfl, rfl, rfl, ?_, rfl, hc.1⟩
    rcases hc.2 with ⟨hlt, before, after, hcontent, ho⟩ | rfl
    · exact .inl ⟨hlt, rfl, before, after, hcontent, ho, .inl rfl⟩
    · exact .inr (by simp)

theorem spansOf_length (s offset : Nat) (rs : List (Rec C config)) : (spansOf s offset rs).length = rs.length := by
  induction rs generalizing offset with
  | nil => rfl
  | cons r rs ih => simp [spansOf, ih]

private theorem runOf_length_le (content : Nat → List (Rec C config)) (s n : Nat) :
    (runOf content s n).length ≤
      ((List.range' s n).map fun s => (segBytes C config (content s)).length).sum := by
  induction n generalizing s with
  | zero => simp [runOf]
  | succ n ih =>
    have := length_le_segBytes (content s)
    have := ih (s + 1)
    simp only [runOf, List.length_append, spansOf_length, List.range'_succ, List.map_cons, List.sum_cons]
    omega

private theorem recordsFrom_length_le (content : Nat → List (Rec C config)) {stop : Nat} {c : WalCursor}
    (h : Boundary content stop c) :
    (recordsFrom content stop c).length ≤
      ((List.range' c.segment (stop - c.segment)).map fun s => (segBytes C config (content s)).length).sum := by
  obtain ⟨s, offset⟩ := c
  rcases h with ⟨hlt, before, after, hc, ho⟩ | he
  · simp only at hlt hc ho
    subst ho
    have := runOf_length_le content (s + 1) (stop - (s + 1))
    have := length_le_segBytes after
    rw [recordsFrom_position content hlt hc, range'_segments hlt]
    simp only [List.length_append, spansOf_length, List.map_cons, List.sum_cons, hc, segBytes_append]
    omega
  · cases he
    simp [recordsFrom_stop]

/-- A window that stands in the log is drained to the end of its prefix of the records. -/
theorem drain_stands (L : Log C config) {w : PublicationWindow} (h : w.Stands L.content L.next L.first)
    (hframed : w.framedBytes = 0) :
    ∃ ws ck, drain C config L.dir w = .ok (ws, ck) ∧
      L.recordsFrom w.checkpoint = ws ++ L.recordsFrom ck ∧ L.Position ck ∧
      (L.recordsFrom ck = [] → ck = ⟨L.next, 0⟩) ∧ (L.recordsFrom w.checkpoint ≠ [] → ws ≠ []) ∧
      (ck = w.checkpoint ∨ AtRecord L.content ck) := by
  have hsegs : w.records.reader.segments = List.range' w.checkpoint.segment (L.next - w.checkpoint.segment) := by
    rw [h.checkpoint]
    rcases h.stands with ⟨_, hs, _⟩ | he
    · exact hs
    · rw [he]
      simp
  have hbytes : ((w.records.reader.segments.map fun s => ((L.dir (sealedPath s)).getD []).length).sum) =
      ((List.range' w.checkpoint.segment (L.next - w.checkpoint.segment)).map
        fun s => (segBytes C config (L.content s)).length).sum := by
    rw [hsegs]
    congr 1
    apply List.map_congr_left
    intro s hs
    rw [List.mem_range'_1] at hs
    rw [L.dir_sealed (h.after.trans hs.1) (by omega), Option.getD_some]
  obtain ⟨ws, ck, hdrain, hsplit, hb, hf, ht, hp, hn⟩ := drainFrom_spec (fun _ => L.onDisk) _ 0 w h
    (Nat.lt_succ_of_le (hbytes ▸ recordsFrom_length_le L.content (h.checkpoint ▸ h.stands.boundary)))
  exact ⟨ws, ck, by simp only [drain, hdrain, Option.getD_some], hsplit, ⟨hf, hb⟩, ht, hp hframed, hn⟩

/-- A drained window over a quiet log. -/
theorem drain_position (L : Log C config) (hq : L.Quiet) {c : WalCursor} (hc : L.Position c)
    {names : List Path} (hl : Lists L.dir names) {maxBytes : Nat} (hm : 0 < maxBytes) :
    ∃ w ws ck, readWindow C config (fun _ => Glimpse.still names L.dir) c maxBytes = .ok w ∧
      drain C config L.dir w = .ok (ws, ck) ∧ L.recordsFrom c = ws ++ L.recordsFrom ck ∧
      L.Position ck ∧ (L.recordsFrom ck = [] → ck = ⟨L.next, 0⟩) ∧
      (L.recordsFrom c ≠ [] → ws ≠ []) := by
  obtain ⟨w, hw, hstands, rfl, hframed⟩ := readWindow_position L hq hc hl hm
  obtain ⟨ws, ck, hdrain, hsplit, hpos, hend, hprogress, _⟩ := drain_stands L hstands hframed
  exact ⟨w, ws, ck, hw, hdrain, hsplit, hpos, hend, hprogress⟩

/-- The cursor a run of windows from `c` has come to. -/
def lastCursor : WalCursor → List (List (WalRecord β) × WalCursor) → WalCursor
  | c, [] => c
  | _, w :: windows => lastCursor w.2 windows

/-- One sealed record under an empty active segment. -/
def sampleLog : Log (Capture.batchCodec Capture.Crates.small) .standard :=
  ⟨1, Nat.one_pos, [[flatRec]], some ⟨[], []⟩⟩

theorem sampleLog_origin : sampleLog.Position .origin :=
  ⟨le_refl _, .inl ⟨by decide, [], [flatRec], rfl, rfl⟩⟩

end log
end Hoglet.Wal
