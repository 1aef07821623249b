import Hoglet.Wal.Reclaim
import Hoglet.Wal.Run

/-! The publisher's reads and removals while the writer renames and creates segments under them. -/
namespace Hoglet.Wal
variable {β : Type} {C : Codec β} {config : WalConfig}

/-- Every item of a reader, the directory of the `i`-th call being `dirs i`; `none` when the fuel was
too little. -/
def collectFrom (C : Codec β) (config : WalConfig) (dirs : Nat → Dir) :
    Nat → Nat → SealedRecords → Option (Except WalError (List (WalRecord β)))
  | 0, _, _ => none
  | fuel + 1, i, records =>
    match records.nextItem C config (dirs i) with
    | (none, _) => some (.ok [])
    | (some (.error error), _) => some (.error error)
    | (some (.ok record), records) =>
      match collectFrom C config dirs fuel (i + 1) records with
      | some (.ok later) => some (.ok (record :: later))
      | other => other

section collect
variable {content : Nat → List (Rec C config)} {stop first : Nat} {dirs : Nat → Dir}

private theorem collectFrom_stands (hd : ∀ i, OnDisk content stop first (dirs i)) (fuel i : Nat) (r : Reader)
    (hr : r.Stands content stop) (hf : first ≤ r.next.segment)
    (hfuel : (recordsFrom content stop r.next).length < fuel) :
    collectFrom C config dirs fuel i ⟨r, some ⟨stop, 0⟩, false⟩ = some (.ok (recordsFrom content stop r.next)) := by
  induction fuel generalizing i r with
  | zero => omega
  | succ fuel ih =>
    obtain ⟨r', hs', hle, hm⟩ := nextRecord_spec (hd i) r hr hf
    cases hrec : recordsFrom content stop r.next with
    | nil =>
      simp only [hrec] at hm
      simp [collectFrom, SealedRecords.nextItem, hm.1]
    | cons w ws =>
      simp only [hrec] at hm
      obtain ⟨hn, hrest, _⟩ := hm
      rw [hrec, List.length_cons] at hfuel
      have hi := ih (i + 1) r' hs' (hf.trans hle) (by rw [hrest]; omega)
      simp only [collectFrom, SealedRecords.nextItem, Bool.false_eq_true, if_false, hn, hi, hrest]

/-- A reader past its sealed segments yields nothing. -/
private theorem collectFrom_done (fuel i : Nat) (c : WalCursor) (terminal : Option WalCursor) :
    collectFrom C config dirs (fuel + 1) i ⟨⟨[], none, c⟩, terminal, false⟩ = some (.ok []) := by
  simp [collectFrom, SealedRecords.nextItem, nextRecord]

theorem runOf_congr {other : Nat → List (Rec C config)} (s n : Nat)
    (h : ∀ u, s ≤ u → u < s + n → content u = other u) : runOf content s n = runOf other s n := by
  induction n generalizing s with
  | zero => rfl
  | succ n ih =>
    rw [runOf, runOf, h s (le_refl _) (by omega), ih (s + 1) fun u h1 h2 => h u (by omega) (by omega)]

theorem runOf_append (s m n : Nat) : runOf content s (m + n) = runOf content s m ++ runOf content (s + m) n := by
  induction m generalizing s with
  | zero => simp [runOf]
  | succ m ih =>
    rw [show m + 1 + n = (m + n) + 1 by omega, runOf, runOf, ih, List.append_assoc,
      show s + 1 + m = s + (m + 1) by omega]

/-- Reading up to an earlier end gives a prefix of what reading up to a later one gives. -/
theorem recordsFrom_prefix {other : Nat → List (Rec C config)} {stop stop' : Nat} {c : WalCursor} (hle : stop ≤ stop')
    (h : ∀ u, c.segment ≤ u → u < stop → content u = other u) :
    recordsFrom content stop c <+: recordsFrom other stop' c := by
  by_cases hc : c.segment < stop
  · rw [recordsFrom, recordsFrom, if_pos hc, if_pos (by omega), h _ (le_refl _) hc,
      runOf_congr _ _ fun u h1 h2 => h u (by omega) (by omega),
      show stop' - (c.segment + 1) = (stop - (c.segment + 1)) + (stop' - stop) by omega, runOf_append]
    simp
  · rw [recordsFrom, if_neg hc]
    exact List.nil_prefix

end collect

private theorem WriterRuns.named_sealed {run : Nat → Log C config} (h : WriterRuns run) {start stop last s : Nat}
    {names : List Path} (hseen : SeenDuring run start stop names) (hle : stop ≤ last) (hs : sealedPath s ∈ names) :
    (run last).first ≤ s ∧ s < (run last).next := by
  obtain ⟨t, _, ht, hiff⟩ := hseen (sealedPath s)
  obtain ⟨hf, hlt⟩ := ((run t).mem_dir_sealed s).mp (hiff.mp hs)
  exact ⟨by rw [h.first_eq (ht.trans hle)]; exact hf, hlt.trans_le (h.runs.grows (ht.trans hle)).next_le⟩

/-- A reader opened on any listing yields a prefix of the sealed records from its cursor on: it skips
none, repeats none, and reads nothing of the active segment. -/
theorem open_yields_prefix {run : Nat → Log C config} (h : WriterRuns run) {attempts : Nat → Glimpse} {last : Nat}
    (hw : ∀ i, Watches run last (attempts i)) {c : WalCursor} {records : SealedRecords}
    (hopen : SealedRecords.open_ C config attempts c = .ok records) (times : Nat → Nat) (ht : ∀ i, last ≤ times i) :
    ∃ rs, (∀ fuel, rs.length < fuel → collectFrom C config (fun i => (run (times i)).dir) fuel 0 records = some (.ok rs)) ∧
      ∀ t, last ≤ t → rs <+: (run t).recordsFrom c := by
  obtain ⟨i, _, hi⟩ := retryLayoutRace_eq_attempt fun i => SealedRecords.openOnce C config (attempts i) c
  rw [SealedRecords.open_, hi] at hopen
  obtain ⟨start, stop', scan, bound, hss, hsb, hbl, hseen, hscan, hbound⟩ := hw i
  have hnamed : ∀ s, sealedPath s ∈ (attempts i).names → (run last).first ≤ s ∧ s < (run last).next :=
    fun s hs => h.named_sealed hseen (by omega) hs
  obtain ⟨first, stop, _, hfc, hcs, hnames, rfl, hboundary⟩ := openOnce_ok (run last).content hopen
    (fun s file hs hfile => h.runs.sealed_file (by omega) (hscan ▸ hfile) (hnamed s hs).1)
    (fun s file hs hfile => h.runs.sealed_file hbl (hbound ▸ hfile) (hnamed s hs).1)
  have hdisk : ∀ t, last ≤ t → OnDisk (run last).content stop c.segment (run t).dir := by
    intro t hlt s hs1 hs2
    obtain ⟨hf, hn⟩ := hnamed s (hnames s (hfc.trans hs1) hs2)
    have hg := h.runs.grows hlt
    have hft : (run t).first ≤ s := by rw [h.first_eq hlt]; exact hf
    rw [(run t).dir_sealed hft (hn.trans_le hg.next_le), hg.content s hft hn]
  refine ⟨recordsFrom (run last).content stop c, fun fuel hfuel => ?_, fun t hlt => ?_⟩
  · by_cases hlt : c.segment < stop
    · refine collectFrom_stands (fun j => hdisk _ (ht j)) fuel 0 _ ?_ (le_refl c.segment) hfuel
      rcases hboundary hlt with ⟨_, before, after, hc, ho⟩ | he
      · exact .inl ⟨hlt, rfl, before, after, hc, ho, .inl rfl⟩
      · rw [he] at hlt
        exact absurd hlt (lt_irrefl _)
    · obtain ⟨fuel, rfl⟩ := Nat.exists_eq_succ_of_ne_zero (Nat.ne_of_gt (Nat.zero_lt_of_lt hfuel))
      rw [recordsFrom, if_neg hlt, show stop - c.segment = 0 by omega]
      exact collectFrom_done fuel 0 c _
  · by_cases hlt' : c.segment < stop
    · have hg := h.runs.grows hlt
      have hlast := hnamed (stop - 1) (hnames (stop - 1) (by omega) (by omega))
      refine recordsFrom_prefix (by have := hg.next_le; omega) fun u h1 h2 => ?_
      obtain ⟨hf, hn⟩ := hnamed u (hnames u (by omega) h2)
      exact (hg.content u (by rw [h.first_eq hlt]; exact hf) hn).symm
    · rw [recordsFrom, if_neg hlt']
      exact List.nil_prefix

private theorem spansOf_stop_le (s offset : Nat) (rs : List (Rec C config)) {w : WalRecord β}
    (h : w ∈ spansOf s offset rs) : w.span.stop.segment = s ∧ w.span.stop.byteOffset ≤ offset + (segBytes C config rs).length := by
  induction rs generalizing offset with
  | nil => simp [spansOf] at h
  | cons r rs ih =>
    rw [spansOf] at h
    rcases List.mem_cons.mp h with rfl | h
    · refine ⟨rfl, ?_⟩
      simp only [segBytes_cons, List.length_append, Rec.framedBytes]
      omega
    · obtain ⟨h1, h2⟩ := ih _ h
      simp only [segBytes_cons, List.length_append, Rec.framedBytes] at *
      exact ⟨h1, by omega⟩

/-- Whatever `reclaim_through` removed, and however it went, every record of it lay before the checkpoint. -/
theorem reclaim_removes_covered {run : Nat → Log C config} (h : Runs run) {attempts : Nat → Glimpse} {last : Nat}
    (hw : ∀ i, Watches run last (attempts i)) (removal : Nat → Nat → Option IoKind) (sync : Nat → Option IoKind)
    {checkpoint : WalCursor} {s : Nat}
    (hs : s ∈ (reclaimThrough (fun i => reclaimThroughOnce C config (attempts i) (removal i) (sync i) checkpoint)
      (layoutRaceAttempts - 1) 0).1) (t : Nat) (hf : (run t).first ≤ s) (hn : s < (run t).next) :
    ∀ w ∈ spansOf s 0 ((run t).content s), w.span.stop.Before checkpoint := by
  intro w hmem
  obtain ⟨hseg, hoff⟩ := spansOf_stop_le s 0 _ hmem
  obtain ⟨i, _, _, hi⟩ := mem_reclaimThrough hs
  obtain ⟨reclaim, hreclaim, hin⟩ := mem_reclaimThroughOnce hi
  obtain ⟨_, hlt | ⟨heq, hfound⟩⟩ := reclaimList_spec hreclaim hin
  · exact .inl (by omega)
  obtain ⟨_, _, scan, bound, _, _, _, _, hscan, _⟩ := hw i
  obtain ⟨⟨file, cut, hfile, hok⟩, _, _⟩ := hfound
  rw [hscan] at hfile
  obtain ⟨hfs, hns, rfl⟩ := (run scan).dir_sealed_some hfile
  rw [scanSegment_segBytes] at hok
  have hlen := congrArg SegmentScan.validBytes (Except.ok.inj hok)
  simp only at hlen
  -- the two moments agree on the segment, whichever comes first
  have hsame : (run scan).content s = (run t).content s := by
    rcases le_total scan t with hle | hle
    · exact ((h.grows hle).content s hf hns).symm
    · exact (h.grows hle).content s hfs hn
  rw [hsame] at hlen
  exact .inr ⟨by omega, by omega⟩

/-- The writer cannot make the publisher skip or repeat a record, or remove one too early. -/
theorem race_safety (attempts : Nat → Glimpse) (last : Nat) (c : WalCursor) :
    (∀ run : Nat → Log C config, WriterRuns run → (∀ i, Watches run last (attempts i)) →
      ∀ records, SealedRecords.open_ C config attempts c = .ok records →
      ∀ times : Nat → Nat, (∀ i, last ≤ times i) →
      ∃ rs, (∀ fuel, rs.length < fuel →
          collectFrom C config (fun i => (run (times i)).dir) fuel 0 records = some (.ok rs)) ∧
        ∀ t, last ≤ t → rs <+: (run t).recordsFrom c) ∧
    (∀ run : Nat → Log C config, Runs run → (∀ i, Watches run last (attempts i)) →
      ∀ (removal : Nat → Nat → Option IoKind) (sync : Nat → Option IoKind) (s : Nat),
      s ∈ (reclaimThrough (fun i => reclaimThroughOnce C config (attempts i) (removal i) (sync i) c)
        (layoutRaceAttempts - 1) 0).1 →
      ∀ t, (run t).first ≤ s → s < (run t).next → ∀ w ∈ spansOf s 0 ((run t).content s), w.span.stop.Before c) :=
  ⟨fun _ hrun hw _ hopen times ht => open_yields_prefix hrun hw hopen times ht,
    fun _ hrun hw removal sync _ hs => reclaim_removes_covered hrun hw removal sync hs⟩

private theorem watches_still (L : Log C config) (i : Nat) : Watches (fun _ => L) 0 ((fun _ => .still L.names L.dir) i) :=
  ⟨0, 0, 0, 0, le_refl _, le_refl _, le_refl _, fun p => ⟨0, le_refl _, le_refl _, L.lists_names.2 p⟩, rfl, rfl⟩

/-- A resting directory with one sealed record: it is read from the origin and removed past it. -/
theorem race_safety_sample :
    (∃ records, SealedRecords.open_ (Capture.batchCodec Capture.Crates.small) .standard
        (fun _ => .still sampleLog.names sampleLog.dir) .origin = .ok records ∧
      ∃ rs, collectFrom (Capture.batchCodec Capture.Crates.small) .standard (fun _ => sampleLog.dir) (rs.length + 1) 0
        records = some (.ok rs) ∧ rs <+: sampleLog.recordsFrom .origin) ∧
    ∀ w ∈ spansOf 1 0 (sampleLog.content 1), w.span.stop.Before ⟨2, 0⟩ := by
  constructor
  · have hopen := open_position sampleLog rfl sampleLog_origin sampleLog.lists_names
    obtain ⟨rs, hrs, hprefix⟩ := (race_safety (fun _ => .still sampleLog.names sampleLog.dir) 0 .origin).1
      (fun _ => sampleLog) (fun _ => .inl rfl) (watches_still sampleLog) _ hopen (fun _ => 0) (fun _ => le_refl _)
    exact ⟨_, hopen, rs, hrs _ (by omega), hprefix 0 (le_refl _)⟩
  · obtain ⟨valid, hlist⟩ := reclaimList_position sampleLog rfl (c := ⟨2, 0⟩) ⟨by decide, .inr rfl⟩ sampleLog.lists_names
    refine (race_safety (fun _ => .still sampleLog.names sampleLog.dir) 0 ⟨2, 0⟩).2 (fun _ => sampleLog)
      (fun _ => .inl rfl) (watches_still sampleLog) (fun _ _ => none) (fun _ => none) 1 ?_ 0 (by decide) (by decide)
    have honce : reclaimThroughOnce (Capture.batchCodec Capture.Crates.small) .standard
        (.still sampleLog.names sampleLog.dir) (fun _ => none) none ⟨2, 0⟩ = ([1], .ok [1]) := by
      simp only [reclaimThroughOnce, hlist]
      rfl
    rw [layoutRaceAttempts, reclaimThrough, honce]
    simp

end Hoglet.Wal
