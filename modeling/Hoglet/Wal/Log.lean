import Hoglet.Wal.Layout

/-! The log as a sequence of segments of records, and the directory it stands for. The oldest
segments may be gone; between the rename of a full segment and the creation of the next one there is
no active segment. -/
namespace Hoglet.Wal
variable {β : Type} (C : Codec β) (config : WalConfig)

/-- The newest segment while the writer fills it: whole records, then the bytes that have landed of
the frame it is part-way through. -/
structure Tail where
  whole : List (Rec C config)
  torn : Bytes

structure Log where
  first : Nat
  first_pos : 0 < first
  sealed : List (List (Rec C config))
  active : Option (Tail C config)

/-- Exact half-open byte range occupied by one durable record. -/
structure WalSpan where
  start : WalCursor
  stop : WalCursor
  framedBytes : Nat
  deriving DecidableEq, Repr

structure WalRecord (β : Type) where
  batch : β
  span : WalSpan

section log
variable {C config}

def Tail.bytes (t : Tail C config) : Bytes := segBytes C config t.whole ++ t.torn

namespace Log

/-- The sequence of the active segment, or of the segment the writer creates next. -/
def next (L : Log C config) : Nat := L.first + L.sealed.length

def segment (L : Log C config) (s : Nat) : Option (List (Rec C config)) :=
  if L.first ≤ s then L.sealed[s - L.first]? else none

def content (L : Log C config) (s : Nat) : List (Rec C config) := (L.segment s).getD []

def dir (L : Log C config) : Dir := fun p =>
  match p.suffix with
  | .wal => (L.segment p.sequence).map (segBytes C config)
  | .open_ => if p.sequence = L.next then L.active.map Tail.bytes else none

def layout (L : Log C config) : SegmentLayout :=
  ⟨List.range' L.first L.sealed.length, L.active.map fun _ => L.next⟩

theorem segment_isSome (L : Log C config) (s : Nat) :
    (L.segment s).isSome ↔ L.first ≤ s ∧ s < L.next := by
  by_cases h : L.first ≤ s
  · simp only [segment, h, if_true, isSome_getElem?, next, true_and]
    omega
  · simp [segment, h]

theorem segment_eq_some (L : Log C config) {s : Nat} (h : L.first ≤ s) (hs : s < L.next) :
    L.segment s = some (L.content s) := by
  obtain ⟨rs, hr⟩ := Option.isSome_iff_exists.mp ((L.segment_isSome s).mpr ⟨h, hs⟩)
  rw [content, hr, Option.getD_some]

theorem dir_sealed (L : Log C config) {s : Nat} (h : L.first ≤ s) (hs : s < L.next) :
    L.dir (sealedPath s) = some (segBytes C config (L.content s)) := by
  simp [dir, sealedPath, L.segment_eq_some h hs]

theorem dir_active (L : Log C config) {t : Tail C config} (h : L.active = some t) :
    L.dir (activePath L.next) = some t.bytes := by simp [dir, activePath, h]

theorem mem_dir_sealed (L : Log C config) (s : Nat) :
    (L.dir (sealedPath s)).isSome ↔ L.first ≤ s ∧ s < L.next := by
  simp [dir, sealedPath, segment_isSome]

theorem mem_dir_active (L : Log C config) (s : Nat) :
    (L.dir (activePath s)).isSome ↔ s = L.next ∧ L.active.isSome := by
  by_cases h : s = L.next <;> simp [dir, activePath, h]

/-- The names in the directory, oldest first. -/
def names (L : Log C config) : List Path :=
  (List.range' L.first L.sealed.length).map sealedPath ++ (L.active.map fun _ => activePath L.next).toList

theorem lists_names (L : Log C config) : Lists L.dir L.names := by
  constructor
  · rw [names, List.nodup_append]
    refine ⟨List.Nodup.map (fun a b h => by simpa [sealedPath] using h) List.nodup_range', by cases L.active <;> simp, ?_⟩
    rintro p hp q hq rfl
    obtain ⟨s, _, rfl⟩ := List.mem_map.mp hp
    cases ha : L.active <;> simp [ha, sealedPath, activePath] at hq
  · rintro ⟨s, suffix⟩
    cases suffix with
    | wal =>
      rw [show (⟨s, .wal⟩ : Path) = sealedPath s from rfl, mem_dir_sealed]
      cases ha : L.active <;> simp [names, ha, sealedPath, activePath, List.mem_range'_1, next]
    | open_ =>
      rw [show (⟨s, .open_⟩ : Path) = activePath s from rfl, mem_dir_active]
      cases ha : L.active <;> simp [names, ha, sealedPath, activePath]

/-- Whatever order a quiet listing has, discovery finds the log's layout. -/
theorem discover (L : Log C config) {names : List Path} (h : Lists L.dir names) :
    discoverSegmentLayout names = .ok L.layout := by
  obtain ⟨hd, hm⟩ := h
  have hw : sequencesOf .wal names = List.range' L.first L.sealed.length := by
    apply sequencesOf_eq .wal hd List.pairwise_lt_range'
    intro s
    rw [hm ⟨s, .wal⟩, show (⟨s, .wal⟩ : Path) = sealedPath s from rfl, mem_dir_sealed,
      List.mem_range'_1, next]
  have ho : sequencesOf .open_ names = (L.active.map fun _ => L.next).toList := by
    apply sequencesOf_eq .open_ hd
    · cases L.active <;> simp
    intro s
    rw [hm ⟨s, .open_⟩, show (⟨s, .open_⟩ : Path) = activePath s from rfl, mem_dir_active]
    cases L.active <;> simp
  have hseen : sequencesSeen (List.range' L.first L.sealed.length) (L.active.map fun _ => L.next).toList =
      List.range' L.first (L.sealed.length + L.active.toList.length) := by
    rw [sequencesSeen]
    have hrange : List.range' L.first L.sealed.length ++
        (L.active.map fun _ => L.next).toList.head?.toList =
          List.range' L.first (L.sealed.length + L.active.toList.length) := by
      cases L.active with
      | none => simp
      | some t => simp [List.range'_concat, next]
    rw [hrange]
    exact List.Pairwise.insertionSort_eq ((List.pairwise_lt_range' (s := L.first)).imp Nat.le_of_lt)
  apply checkLayout_eq_ok.mpr
  simp only [listSegments, hw, ho, hseen]
  refine ⟨?_, ?_, ?_, checkSequences_range' _ _, ?_⟩
  · simp only [layout]
    cases L.active <;> rfl
  · cases L.active <;> simp
  · have := L.first_pos
    cases hn : L.sealed.length + L.active.toList.length with
    | zero => simp
    | succ n => simp only [List.range'_succ, List.head?_cons, ne_eq, Option.some.injEq]; omega
  · intro s hs
    cases ha : L.active with
    | none => simp [ha] at hs
    | some t =>
      simp only [ha, Option.map_some, Option.toList_some, List.head?_cons, Option.some.injEq] at hs
      subst hs
      simp [List.range'_concat, next]

end Log

/-- A cursor on a record boundary of the segments below `stop`, segment ends included, or the start
of segment `stop`. -/
def Boundary (content : Nat → List (Rec C config)) (stop : Nat) (c : WalCursor) : Prop :=
  (c.segment < stop ∧ ∃ before after, content c.segment = before ++ after ∧
    c.byteOffset = (segBytes C config before).length) ∨
  c = ⟨stop, 0⟩

/-- A record boundary of the sealed log as it is on disk, or the start of the active or next segment. -/
def Log.Position (L : Log C config) (c : WalCursor) : Prop :=
  L.first ≤ c.segment ∧ Boundary L.content L.next c

/-- The records of one segment from an offset on, with their spans. -/
def spansOf (s : Nat) : Nat → List (Rec C config) → List (WalRecord β)
  | _, [] => []
  | offset, r :: rs =>
    ⟨r.batch, ⟨⟨s, offset⟩, ⟨s, offset + r.framedBytes⟩, r.framedBytes⟩⟩ ::
      spansOf s (offset + r.framedBytes) rs

/-- The records of `n` whole segments from segment `s` on. -/
def runOf (content : Nat → List (Rec C config)) : Nat → Nat → List (WalRecord β)
  | _, 0 => []
  | s, n + 1 => spansOf s 0 (content s) ++ runOf content (s + 1) n

/-- The records of a segment at or after an offset. -/
def recsAfter : Nat → List (Rec C config) → List (Rec C config)
  | _, [] => []
  | offset, r :: rs => if offset = 0 then r :: rs else recsAfter (offset - r.framedBytes) rs

/-- Every record of the segments below `stop` at or after the cursor, in order. -/
def recordsFrom (content : Nat → List (Rec C config)) (stop : Nat) (c : WalCursor) : List (WalRecord β) :=
  if c.segment < stop then
    spansOf c.segment c.byteOffset (recsAfter c.byteOffset (content c.segment)) ++
      runOf content (c.segment + 1) (stop - (c.segment + 1))
  else []

/-- Every sealed record at or after the cursor, in order. -/
def Log.recordsFrom (L : Log C config) (c : WalCursor) : List (WalRecord β) :=
  Wal.recordsFrom L.content L.next c

theorem recsAfter_zero (rs : List (Rec C config)) : recsAfter 0 rs = rs := by
  cases rs <;> rfl

theorem recsAfter_append (before after : List (Rec C config)) :
    recsAfter (segBytes C config before).length (before ++ after) = after := by
  induction before with
  | nil => exact recsAfter_zero after
  | cons r rs ih =>
    have hp := r.framedBytes_pos
    rw [Rec.framedBytes] at hp
    rw [List.cons_append, recsAfter, segBytes_cons, List.length_append, if_neg (by omega), Rec.framedBytes,
      Nat.add_sub_cancel_left, ih]

theorem recordsFrom_stop (content : Nat → List (Rec C config)) (stop offset : Nat) :
    recordsFrom content stop ⟨stop, offset⟩ = [] := by simp [recordsFrom]

theorem recordsFrom_position (content : Nat → List (Rec C config)) {s stop : Nat} (h : s < stop)
    {before after : List (Rec C config)} (hc : content s = before ++ after) :
    recordsFrom content stop ⟨s, (segBytes C config before).length⟩ =
      spansOf s (segBytes C config before).length after ++ runOf content (s + 1) (stop - (s + 1)) := by
  simp only [recordsFrom, h, if_true, hc, recsAfter_append]

theorem recordsFrom_start (content : Nat → List (Rec C config)) {s stop : Nat} (h : s ≤ stop) :
    recordsFrom content stop ⟨s, 0⟩ = runOf content s (stop - s) := by
  obtain rfl | hlt := h.eq_or_lt
  · simp [recordsFrom, runOf]
  · have hn : stop - s = (stop - (s + 1)) + 1 := by omega
    rw [recordsFrom, if_pos hlt, recsAfter_zero, hn, runOf]

/-- A cursor at a record boundary of an intact file. -/
theorem validateCursor_found {layout : SegmentLayout} {scanned bounded : Dir} {c : WalCursor} {path : Path}
    {before after : List (Rec C config)} (hs : cursorPath layout c.segment = some path)
    (hscan : scanned path = some (segBytes C config (before ++ after)))
    (hbound : bounded path = some (segBytes C config (before ++ after)))
    (ho : c.byteOffset = (segBytes C config before).length) :
    validateCursor C config layout scanned bounded c =
      .ok (segBytes C config (before ++ after)).length := by
  have hb := isRecordBoundary_segBytes c.segment before (segBytes C config after)
  rw [← segBytes_append, ← ho] at hb
  have hle : ¬ (segBytes C config (before ++ after)).length < c.byteOffset := by rw [ho]; simp
  simp only [validateCursor, hs, openFile, hscan, hbound, scanSegment_segBytes, hle,
    if_false, bind, Except.bind, pure, Except.pure, hb]
  split <;> rfl

/-- At the start of a segment the listing shows as active, only the scan of its file decides. -/
theorem validateCursor_active {layout : SegmentLayout} {scanned bounded : Dir} {s : Nat} {file : Bytes}
    (hs : s ∉ layout.sealed) (ha : layout.active = some s) (hf : scanned (activePath s) = some file) :
    validateCursor C config layout scanned bounded ⟨s, 0⟩ =
      (scanSegment C config file s false).map SegmentScan.validBytes := by
  simp only [validateCursor, cursorPath, hs, if_false, ha, if_true, openFile, hf, bind, Except.bind]
  cases scanSegment C config file s false <;> rfl

namespace Log

/-- No frame is half written, and mid-seal the segment just sealed is still there. -/
def Quiet (L : Log C config) : Prop :=
  match L.active with
  | some t => t.torn = []
  | none => L.sealed ≠ []

theorem mem_layout_sealed (L : Log C config) (s : Nat) : s ∈ L.layout.sealed ↔ L.first ≤ s ∧ s < L.next := by
  simp [layout, List.mem_range'_1, next]

theorem cursorPath_sealed (L : Log C config) {s : Nat} (hf : L.first ≤ s) (hlt : s < L.next) :
    cursorPath L.layout s = some (sealedPath s) := by
  simp [cursorPath, (L.mem_layout_sealed s).mpr ⟨hf, hlt⟩]

theorem nextSegmentCursor_eq (L : Log C config) (h : L.active = none) (hs : L.sealed ≠ []) :
    L.layout.nextSegmentCursor = some ⟨L.next, 0⟩ := by
  obtain ⟨n, hn⟩ := Nat.exists_eq_succ_of_ne_zero (mt List.length_eq_zero_iff.mp hs)
  simp [SegmentLayout.nextSegmentCursor, layout, h, next, hn, List.range'_concat]
  omega

/-- On a quiet log every position is a valid cursor; in a sealed segment the validated size is the
segment's. -/
theorem validateCursor_position (L : Log C config) (hq : L.Quiet) {c : WalCursor} (hc : L.Position c) :
    ∃ valid, validateCursor C config L.layout L.dir L.dir c = .ok valid ∧
      (c.segment < L.next → valid = (segBytes C config (L.content c.segment)).length) := by
  obtain ⟨hf, ⟨hlt, before, after, hcontent, ho⟩ | rfl⟩ := hc
  · have hdir := L.dir_sealed hf hlt
    rw [hcontent] at hdir
    refine ⟨_, validateCursor_found (L.cursorPath_sealed hf hlt) hdir hdir ho, fun _ => ?_⟩
    rw [hcontent]
  · have hn : L.next ∉ L.layout.sealed := by simp [mem_layout_sealed]
    cases ha : L.active with
    | some t =>
      simp only [Quiet, ha] at hq
      refine ⟨(segBytes C config t.whole).length, ?_, fun h => absurd h (lt_irrefl _)⟩
      rw [validateCursor_active hn (by simp [layout, ha]) (L.dir_active ha), Tail.bytes, hq, List.append_nil,
        scanSegment_segBytes]
      rfl
    | none =>
      simp only [Quiet, ha] at hq
      refine ⟨0, ?_, fun h => absurd h (lt_irrefl _)⟩
      simp only [validateCursor, cursorPath, hn, if_false, L.nextSegmentCursor_eq ha hq]
      simp [layout, ha]

end Log
end log
end Hoglet.Wal
