import Hoglet.Query.Funnels.Results

/-! The bins of the time to convert: equal, contiguous, each duration in one of them, and ten at most unless the span of the
durations is a multiple of ten seconds, which makes eleven. -/
namespace Hoglet.Query.Funnels
variable {durations : List Int}

/-! The source's counters and its arithmetic. -/

/-- One counter for each bin, one more at each duration. -/
def tally (index : Int → Nat) (bins : Nat) (durations : List Int) : List Nat :=
  durations.foldl (fun counts duration => counts.modify (index duration) (· + 1)) (List.replicate bins 0)

theorem tally_eq (index : Int → Nat) (bins : Nat) (durations : List Int) :
    tally index bins durations = (List.range bins).map fun k => durations.countP fun duration => index duration = k := by
  rw [tally]
  induction durations using List.reverseRecOn with
  | nil =>
    apply List.ext_getElem
    · simp
    · intro k _ _
      simp
  | append_singleton durations duration ih =>
    rw [List.foldl_append, ih]
    apply List.ext_getElem
    · simp
    · intro k _ _
      simp only [List.foldl_cons, List.foldl_nil, List.getElem_modify, List.getElem_map, List.getElem_range, List.countP_append,
        List.countP_singleton, decide_eq_true_eq]
      split
      · rfl
      · rfl

/-- The value of an `i64` after an operation that may wrap around. -/
def i64 (n : Int) : Int := n.bmod (2^64)

theorem i64_eq {n : Int} (h : -2^63 ≤ n) (h' : n < 2^63) : i64 n = n := by
  rw [i64]
  apply Int.bmod_eq_of_le_mul_two
  · omega
  · omega

/-- `histogram` with the counters and the arithmetic of the source. -/
def countHistogram (durations : List Int) : List HistogramBin :=
  match durations.min?, durations.max? with
  | some least, some greatest =>
    let low := i64 (least / 1000000 * 1000000)
    let span := i64 (greatest - low)
    let widthSeconds := max ((i64 (i64 (span + maxHistogramBins * 1000000) - 1)).tdiv (maxHistogramBins * 1000000)) 1
    let width := i64 (widthSeconds * 1000000)
    let bins := (i64 (span.tdiv width + 1) % 2^64).toNat
    let counts := tally (fun duration => min ((i64 (duration - low)).tdiv width % 2^64).toNat (bins - 1)) bins durations
    counts.mapIdx fun index count =>
      let start := i64 (low + i64 (index * width))
      { start := start, stop := i64 (start + width), count := count }
  | _, _ => []

/-! The shape of the bins. -/

/-- The bins of a list of durations: few, of one width and side by side, each duration in exactly one and counted there. -/
structure Binned (durations : List Int) (bins : List HistogramBin) : Prop where
  few : (bins.length : Int) ≤ maxHistogramBins
  contiguous : ∀ (k : Nat) (a b : HistogramBin), bins[k]? = some a → bins[k + 1]? = some b → a.stop = b.start
  equalWidth : ∃ width, 0 < width ∧ ∀ bin ∈ bins, bin.stop = bin.start + width
  once : ∀ duration ∈ durations, ∃! k : Nat, ∃ bin, bins[k]? = some bin ∧ bin.start ≤ duration ∧ duration < bin.stop
  counted : ∀ bin ∈ bins, bin.count = durations.countP fun duration => bin.start ≤ duration ∧ duration < bin.stop
  total : (bins.map HistogramBin.count).sum = durations.length

/-- From the whole second of the shortest duration to the longest one it is ten seconds, or a multiple. -/
def TensOfSeconds (durations : List Int) : Prop :=
  ∃ least ∈ durations.min?, ∃ greatest ∈ durations.max?,
    0 < greatest - least / 1000000 * 1000000 ∧ 10000000 ∣ greatest - least / 1000000 * 1000000

/-! The width of the bins. -/
section width
variable {span : Int}

def binWidth (span : Int) : Int := max ((span + maxHistogramBins * 1000000 - 1) / (maxHistogramBins * 1000000)) 1 * 1000000

theorem binWidth_pos (span : Int) : 0 < binWidth span := by
  simp only [binWidth]
  omega

theorem span_le_binWidth (span : Int) : span ≤ 10 * binWidth span := by
  simp only [binWidth, maxHistogramBins]
  omega

theorem binWidth_le (h : 0 ≤ span) : 10 * binWidth span ≤ span + 10000000 := by
  simp only [binWidth, maxHistogramBins]
  omega

theorem span_eq_iff : span = 10 * binWidth span ↔ 0 < span ∧ 10000000 ∣ span := by
  simp only [binWidth, maxHistogramBins]
  omega

theorem quotient_nonneg (h : 0 ≤ span) : 0 ≤ span / binWidth span := Int.ediv_nonneg h (binWidth_pos span).le

theorem quotient_le (span : Int) : span / binWidth span ≤ 10 := Int.ediv_le_of_le_mul (binWidth_pos span) (span_le_binWidth span)

theorem offset_le {k : Nat} (hk : k < (span / binWidth span + 1).toNat) : k * binWidth span ≤ span := by
  have hq : (k : Int) ≤ span / binWidth span := by omega
  exact (Int.le_ediv_iff_mul_le (binWidth_pos span)).mp hq

end width

theorem index_within {low width greatest duration : Int} (hw : 0 < width) (hlow : low ≤ duration) (hle : duration ≤ greatest) :
    0 ≤ (duration - low) / width ∧ (duration - low) / width ≤ (greatest - low) / width :=
  ⟨Int.ediv_nonneg (by omega) hw.le, Int.ediv_le_ediv hw (by omega)⟩

/-- The bins with their indices. -/
theorem histogram_eq {least greatest : Int} (hmin : durations.min? = some least) (hmax : durations.max? = some greatest) :
    histogram durations =
      let low := least / 1000000 * 1000000
      let width := binWidth (greatest - low)
      (List.range ((greatest - low) / width + 1).toNat).map fun (k : Nat) =>
        { start := low + k * width
          stop := low + k * width + width
          count := durations.countP fun duration => (duration - low) / width = k } := by
  have hlift : ∀ n : Nat, (do let k ← List.range n; pure (k : Int)) = (List.range n).map Nat.cast := fun n => by
    rw [List.map_eq_flatMap]
    rfl
  obtain ⟨-, hle⟩ := List.min?_eq_some_iff.mp hmin
  obtain ⟨-, hge⟩ := List.max?_eq_some_iff.mp hmax
  rw [histogram, hmin, hmax]
  dsimp only
  generalize hl : least / 1000000 * 1000000 = low
  have hwidth : max ((greatest - low + maxHistogramBins * 1000000 - 1) / (maxHistogramBins * 1000000)) 1 * 1000000 = binWidth (greatest - low) := rfl
  rw [hlift, List.map_map, hwidth]
  apply List.map_congr_left
  intro k _
  simp only [Function.comp_apply, HistogramBin.mk.injEq, true_and]
  apply List.countP_congr
  intro duration hd
  -- no duration is past the last bin
  have hindex := index_within (binWidth_pos (greatest - low)) (by have := hle duration hd; omega : low ≤ duration) (hge duration hd)
  simp only [decide_eq_true_eq]
  omega

/-- Where no duration is negative or too long nothing wraps around and the counters are exact. -/
theorem countHistogram_eq (h : ∀ duration ∈ durations, 0 ≤ duration ∧ duration < 2^62) : countHistogram durations = histogram durations := by
  cases hmin : durations.min? with
  | none => rw [countHistogram, histogram, hmin]
  | some least =>
    cases hmax : durations.max? with
    | none => rw [countHistogram, histogram, hmin, hmax]
    | some greatest =>
      obtain ⟨hleast, hle⟩ := List.min?_eq_some_iff.mp hmin
      obtain ⟨hgreatest, hge⟩ := List.max?_eq_some_iff.mp hmax
      have hlow := h least hleast
      have hhigh := h greatest hgreatest
      have hwhole := hle greatest hgreatest
      rw [histogram_eq hmin hmax, countHistogram, hmin, hmax]
      dsimp only
      generalize hl : least / 1000000 * 1000000 = low
      rw [i64_eq (n := low) (by omega) (by omega), i64_eq (n := greatest - low) (by omega) (by omega)]
      generalize hs : greatest - low = span
      have hspan : 0 ≤ span ∧ span < 2^62 := by omega
      have hseconds : max ((i64 (i64 (span + maxHistogramBins * 1000000) - 1)).tdiv (maxHistogramBins * 1000000)) 1 * 1000000 = binWidth span := by
        simp only [maxHistogramBins, binWidth]
        rw [i64_eq (n := span + 10 * 1000000) (by omega) (by omega), i64_eq (by omega) (by omega), Int.tdiv_eq_ediv_of_nonneg (by omega)]
      have hwidth := binWidth_le hspan.1
      have hpos := binWidth_pos span
      have hquotient := quotient_le span
      have hnonneg := quotient_nonneg hspan.1
      rw [hseconds, i64_eq (n := binWidth span) (by omega) (by omega), Int.tdiv_eq_ediv_of_nonneg hspan.1,
        i64_eq (n := span / binWidth span + 1) (by omega) (by omega), Int.emod_eq_of_lt (by omega) (by omega), tally_eq]
      apply List.ext_getElem
      · simp
      intro k hk _
      rw [List.length_mapIdx, List.length_map, List.length_range] at hk
      have hoffset := offset_le hk
      have hoffset' : 0 ≤ k * binWidth span := mul_nonneg (Int.natCast_nonneg k) hpos.le
      simp only [List.getElem_mapIdx, List.getElem_map, List.getElem_range]
      rw [i64_eq (n := k * binWidth span) (by omega) (by omega), i64_eq (n := low + k * binWidth span) (by omega) (by omega),
        i64_eq (n := low + k * binWidth span + binWidth span) (by omega) (by omega)]
      congr 1
      apply List.countP_congr
      intro duration hd
      have hduration := h duration hd
      have hfrom := hle duration hd
      have hto := hge duration hd
      have hindex : 0 ≤ (duration - low) / binWidth span := Int.ediv_nonneg (by omega) hpos.le
      have hindex' : (duration - low) / binWidth span ≤ span / binWidth span := Int.ediv_le_ediv hpos (by omega)
      rw [i64_eq (n := duration - low) (by omega) (by omega), Int.tdiv_eq_ediv_of_nonneg (by omega),
        Int.emod_eq_of_lt hindex (by omega)]
      simp only [decide_eq_true_eq]
      omega
/-! The bins of a width. -/
section bins
variable (low width : Int) (n : Nat) (durations : List Int)

def binsOf : List HistogramBin :=
  (List.range n).map fun (k : Nat) =>
    { start := low + k * width
      stop := low + k * width + width
      count := durations.countP fun duration => (duration - low) / width = k }

variable {low width n durations}

theorem getElem?_binsOf {k : Nat} {bin : HistogramBin} : (binsOf low width n durations)[k]? = some bin ↔
    k < n ∧ bin = ⟨low + k * width, low + k * width + width, durations.countP fun duration => (duration - low) / width = k⟩ := by
  rw [binsOf, List.getElem?_map, Option.map_eq_some_iff]
  constructor
  · rintro ⟨i, hi, rfl⟩
    obtain ⟨hlt, rfl⟩ := List.getElem?_eq_some_iff.mp hi
    rw [List.length_range] at hlt
    rw [List.getElem_range]
    exact ⟨hlt, rfl⟩
  · rintro ⟨hlt, rfl⟩
    exact ⟨k, List.getElem?_range hlt, rfl⟩

/-- A duration is between the ends of the bin of its quotient and of no other. -/
theorem index_eq_iff (hw : 0 < width) (duration : Int) (k : Nat) :
    (duration - low) / width = k ↔ low + k * width ≤ duration ∧ duration < low + k * width + width := by
  constructor
  · intro h
    have hle := Int.ediv_mul_le (duration - low) hw.ne'
    have hlt := Int.lt_ediv_add_one_mul_self (duration - low) hw
    rw [h] at hle hlt
    constructor <;> linarith
  · rintro ⟨hle, hlt⟩
    apply le_antisymm
    · have : (duration - low) / width < k + 1 := (Int.ediv_lt_iff_lt_mul hw).mpr (by linarith)
      omega
    · exact (Int.le_ediv_iff_mul_le hw).mpr (by linarith)

private theorem sum_single (n : Nat) {f : Nat → Nat} {i : Nat} (hi : i < n) (h : f i = 1) (h0 : ∀ k, k ≠ i → f k = 0) :
    ((List.range n).map f).sum = 1 := by
  induction n with
  | zero => omega
  | succ n ih =>
    rw [List.range_succ, List.map_append, List.sum_append, List.map_singleton, List.sum_singleton]
    by_cases hn : i = n
    · subst hn
      rw [h, List.map_congr_left (g := fun _ => 0) fun k hk => h0 k (List.mem_range.mp hk).ne]
      simp
    · rw [ih (by omega), h0 n (Ne.symm hn)]

/-- Each element of a list is counted once. -/
theorem sum_countP {index : Int → Int} (h : ∀ duration ∈ durations, 0 ≤ index duration ∧ index duration < n) :
    ((List.range n).map fun (k : Nat) => durations.countP fun duration => index duration = k).sum = durations.length := by
  induction durations with
  | nil => simp
  | cons duration durations ih =>
    obtain ⟨hfirst, hrest⟩ := List.forall_mem_cons.mp h
    have hone := sum_single n (f := fun k => if index duration = k then 1 else 0) (i := (index duration).toNat) (by omega)
      (by simp [hfirst]) fun k hk => if_neg (by omega)
    simp only [List.countP_cons, decide_eq_true_eq, List.length_cons]
    rw [List.sum_map_add, ih hrest, hone]

/-- Bins of one width in a row that reach every duration are as they should be, however many. -/
theorem binned_iff_few (hw : 0 < width) (h : ∀ duration ∈ durations, 0 ≤ (duration - low) / width ∧ (duration - low) / width < n) :
    Binned durations (binsOf low width n durations) ↔ (n : Int) ≤ maxHistogramBins := by
  constructor
  · intro hb
    have hfew := hb.few
    rw [binsOf, List.length_map, List.length_range] at hfew
    exact hfew
  · intro hfew
    constructor
    · rw [binsOf, List.length_map, List.length_range]
      exact hfew
    · intro k a b ha hb
      rw [(getElem?_binsOf.mp ha).2, (getElem?_binsOf.mp hb).2]
      push_cast
      ring
    · refine ⟨width, hw, fun bin hbin => ?_⟩
      obtain ⟨k, hk⟩ := List.mem_iff_getElem?.mp hbin
      rw [(getElem?_binsOf.mp hk).2]
    · intro duration hd
      obtain ⟨hindex, hindex'⟩ := h duration hd
      have hcast : (duration - low) / width = ((duration - low) / width).toNat := by omega
      refine ⟨((duration - low) / width).toNat, ⟨_, getElem?_binsOf.mpr ⟨by omega, rfl⟩, (index_eq_iff hw duration _).mp hcast⟩, ?_⟩
      rintro k ⟨bin, hget, hbin⟩
      rw [(getElem?_binsOf.mp hget).2] at hbin
      have := (index_eq_iff hw duration k).mpr hbin
      omega
    · intro bin hbin
      obtain ⟨k, hk⟩ := List.mem_iff_getElem?.mp hbin
      rw [(getElem?_binsOf.mp hk).2]
      apply List.countP_congr
      intro duration _
      simp only [decide_eq_true_eq]
      exact index_eq_iff hw duration k
    · rw [binsOf, List.map_map]
      exact sum_countP h

end bins

end Hoglet.Query.Funnels
