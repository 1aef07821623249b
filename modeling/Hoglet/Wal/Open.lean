import Hoglet.Wal.Window

/-! What an accepted cursor and an opened reader are, whatever moments of a changing directory the
listing and the opened files show. -/
namespace Hoglet.Wal
variable {β : Type} {C : Codec β} {config : WalConfig}

/-- The cursor was found in a file: the scan passed it, and unless it is the start the boundary pass
found a record boundary there. -/
structure FoundIn (C : Codec β) (config : WalConfig) (scanned bounded : Dir) (path : Path) (c : WalCursor)
    (valid : Nat) : Prop where
  scan : ∃ file cut, scanned path = some file ∧ scanSegment C config file c.segment false = .ok ⟨valid, cut⟩
  inside : c.byteOffset ≤ valid
  boundary : c.byteOffset = 0 ∨
    ∃ file, bounded path = some file ∧ isRecordBoundary config file c.segment c.byteOffset = .ok true

theorem openFile_ok {dir : Dir} {path : Path} {file : Bytes} :
    openFile dir path = .ok file ↔ dir path = some file := by
  unfold openFile
  split <;> simp_all

theorem validateCursor_ok {layout : SegmentLayout} {scanned bounded : Dir} {c : WalCursor} {valid : Nat}
    (h : validateCursor C config layout scanned bounded c = .ok valid) :
    match cursorPath layout c.segment with
    | some path => FoundIn C config scanned bounded path c valid
    | none => c.byteOffset = 0 ∧ layout.nextSegmentCursor = some c ∧ valid = 0 := by
  unfold validateCursor at h
  cases hp : cursorPath layout c.segment with
  | none =>
    simp only [hp] at h ⊢
    split at h
    · rename_i hc
      cases h
      exact ⟨hc.1, hc.2, rfl⟩
    · cases h
  | some path =>
    simp only [hp, bind, Except.bind] at h ⊢
    cases hf : openFile scanned path with
    | error e => simp [hf] at h
    | ok file =>
      simp only [hf] at h
      cases hs : scanSegment C config file c.segment false with
      | error e => simp [hs] at h
      | ok scan =>
        simp only [hs, throw, throwThe, MonadExceptOf.throw, pure, Except.pure] at h
        by_cases hlt : scan.validBytes < c.byteOffset
        · simp [hlt] at h
        by_cases h0 : c.byteOffset = 0
        · simp only [h0, if_true, Nat.not_lt_zero, if_false] at h
          cases h
          exact ⟨⟨file, scan.truncatedTail, openFile_ok.mp hf, hs⟩, by omega, .inl h0⟩
        simp only [hlt, h0, if_false] at h
        cases hb : openFile bounded path with
        | error e => simp [hb] at h
        | ok file' =>
          simp only [hb] at h
          cases hr : isRecordBoundary config file' c.segment c.byteOffset with
          | error e => simp [hr] at h
          | ok onBoundary =>
            simp only [hr] at h
            cases onBoundary with
            | false => simp at h
            | true =>
              simp only [if_true, Except.ok.injEq] at h
              subst h
              exact ⟨⟨file, scan.truncatedTail, openFile_ok.mp hf, hs⟩, by omega, .inr ⟨file', openFile_ok.mp hb, hr⟩⟩

theorem FoundIn.of_sealed {scanned bounded : Dir} {path : Path} {c : WalCursor} {valid : Nat} (rs : List (Rec C config))
    (h : FoundIn C config scanned bounded path c valid) (hs : ∀ file, scanned path = some file → file = segBytes C config rs)
    (hb : ∀ file, bounded path = some file → file = segBytes C config rs) :
    valid = (segBytes C config rs).length ∧
      ∃ before after, rs = before ++ after ∧ c.byteOffset = (segBytes C config before).length := by
  obtain ⟨⟨file, cut, hfile, hscan⟩, _, hbound⟩ := h
  obtain rfl := hs file hfile
  rw [scanSegment_segBytes] at hscan
  cases hscan
  refine ⟨rfl, ?_⟩
  rcases hbound with h0 | ⟨file', hfile', hr⟩
  · exact ⟨[], rs, rfl, h0⟩
  · obtain rfl := hb file' hfile'
    exact boundary_of_isRecordBoundary hr

/-- An accepted layout, as a run of sealed segments up to the one being written or created next. -/
theorem layout_ok {names : List Path} {layout : SegmentLayout} (h : discoverSegmentLayout names = .ok layout) :
    ∃ first stop, 0 < first ∧ first ≤ stop ∧ layout.sealed = List.range' first (stop - first) ∧
      (∀ s, s ∈ layout.sealed ↔ sealedPath s ∈ names) ∧
      (∀ s, layout.active = some s → s = stop ∧ activePath s ∈ names) ∧
      (layout.active = none → layout.nextSegmentCursor = if first < stop then some ⟨stop, 0⟩ else none) := by
  obtain ⟨first, hpos, hs, hm, ha, _⟩ := discoverSegmentLayout_ok h
  refine ⟨first, first + layout.sealed.length, hpos, by omega, by rw [Nat.add_sub_cancel_left]; exact hs, hm, ha, ?_⟩
  intro hnone
  rw [SegmentLayout.nextSegmentCursor, hnone]
  cases hn : layout.sealed.length with
  | zero =>
    rw [List.length_eq_zero_iff.mp hn]
    simp
  | succ n =>
    rw [hs, hn, List.range'_concat]
    simp
    omega

/-- An opened reader stands at the cursor, over the sealed segments the listing showed from there on,
and the cursor is a record boundary of the first of them, if there is one. -/
theorem openOnce_ok {g : Glimpse} {c : WalCursor} {records : SealedRecords} (content : Nat → List (Rec C config))
    (h : SealedRecords.openOnce C config g c = .ok records)
    (hscan : ∀ s file, sealedPath s ∈ g.names → g.scanned (sealedPath s) = some file → file = segBytes C config (content s))
    (hbound : ∀ s file, sealedPath s ∈ g.names → g.bounded (sealedPath s) = some file →
      file = segBytes C config (content s)) :
    ∃ first stop, 0 < first ∧ first ≤ c.segment ∧ c.segment ≤ stop ∧
      (∀ s, first ≤ s → s < stop → sealedPath s ∈ g.names) ∧
      records = ⟨⟨List.range' c.segment (stop - c.segment), none, c⟩, some ⟨stop, 0⟩, false⟩ ∧
      (c.segment < stop → Boundary content stop c) := by
  unfold SealedRecords.openOnce at h
  cases hl : discoverSegmentLayout g.names with
  | error e => simp [hl] at h
  | ok layout =>
    simp only [hl] at h
    cases hv : validateCursor C config layout g.scanned g.bounded c with
    | error e => simp [hv] at h
    | ok valid =>
      simp only [hv, Except.ok.injEq] at h
      obtain ⟨first, stop, hpos, hle, hs, hm, ha, hn⟩ := layout_ok hl
      have hvok := validateCursor_ok hv
      have hmem : ∀ s, s ∈ layout.sealed ↔ first ≤ s ∧ s < stop := by
        intro s
        rw [hs, List.mem_range'_1]
        omega
      have hsegs : first ≤ c.segment → layout.sealed.filter (c.segment ≤ ·) = List.range' c.segment (stop - c.segment) := by
        intro hf
        rw [hs, filter_range' _ _ _ hf]
        congr 1
        omega
      have hnames : ∀ s, first ≤ s → s < stop → sealedPath s ∈ g.names := fun s h1 h2 =>
        (hm s).mp ((hmem s).mpr ⟨h1, h2⟩)
      have hterm : first < stop ∨ layout.active = some stop →
          (layout.active.map fun sequence => (⟨sequence, 0⟩ : WalCursor)).or layout.nextSegmentCursor = some ⟨stop, 0⟩ := by
        intro hor
        cases hact : layout.active with
        | some a => simp [(ha a hact).1]
        | none =>
          have hlt : first < stop := by simpa [hact] using hor
          simp [hn hact, hlt]
      by_cases hin : c.segment ∈ layout.sealed
      · obtain ⟨hf, hlt⟩ := (hmem _).mp hin
        have hpath : cursorPath layout c.segment = some (sealedPath c.segment) := by simp [cursorPath, hin]
        simp only [hpath] at hvok
        obtain ⟨_, before, after, hc, ho⟩ := hvok.of_sealed (content c.segment)
          (fun file => hscan _ file (hnames _ hf hlt)) (fun file => hbound _ file (hnames _ hf hlt))
        refine ⟨first, stop, hpos, hf, hlt.le, hnames, ?_, fun _ => .inl ⟨hlt, before, after, hc, ho⟩⟩
        rw [← h, hsegs hf, hterm (.inl (by omega))]
      · suffices c.segment = stop ∧ (first < stop ∨ layout.active = some stop) by
          obtain ⟨hc, hor⟩ := this
          refine ⟨first, stop, hpos, by omega, hc.le, hnames, ?_, fun hlt => absurd hlt (by omega)⟩
          rw [← h, hsegs (by omega), hterm hor]
        by_cases hact : layout.active = some c.segment
        · have hc := (ha _ hact).1
          exact ⟨hc, .inr (hc ▸ hact)⟩
        · have hpath : cursorPath layout c.segment = none := by simp [cursorPath, hin, hact]
          simp only [hpath] at hvok
          obtain ⟨_, hnext, _⟩ := hvok
          cases hact' : layout.active with
          | some a => simp [SegmentLayout.nextSegmentCursor, hact'] at hnext
          | none =>
            rw [hn hact'] at hnext
            split at hnext
            · rename_i hlt
              simp only [Option.some.injEq] at hnext
              exact ⟨by rw [← hnext], .inl hlt⟩
            · cases hnext

end Hoglet.Wal
