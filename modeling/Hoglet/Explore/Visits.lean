import Hoglet.Explore.Web

/-! Pageviews and visitors: the masks of the distinct ids, merged by person, say in which buckets each person was
seen, so that the fast path counts the persons that the general SQL finds distinct. -/
namespace Hoglet.Explore
open Capture
open Query (Interval Chrono floorTo fromDatetime dateNaive hourUs dayUs weekUs weekOriginUs)

section buckets
variable {C : Chrono}

private theorem next_ns {interval : Interval} {unit : Int} (hu : unitUs interval = some unit) {time following : DateTime}
    (h : next C time interval = some following) : following.ns = time.ns + unit * 1000 := by
  cases interval with
  | hour | day | week =>
    cases hu
    exact ofNs_eq_some.mp h
  | month => cases hu

private theorem bucketsFrom_spec {interval : Interval} {unit : Int} (hu : unitUs interval = some unit) {toTime time : DateTime}
    {room : Nat} {days : List DateTime} (h : bucketsFrom C toTime interval room time = some days) :
    (∀ j (hj : j < days.length), days[j].ns = time.ns + j * (unit * 1000)) ∧ toTime.ns ≤ time.ns + days.length * (unit * 1000) := by
  induction room generalizing time days with
  | zero =>
    rw [bucketsFrom] at h
    split at h <;> cases h
    simpa using by omega
  | succ room ih =>
    rw [bucketsFrom] at h
    split at h
    · obtain ⟨following, hnext, h⟩ := Option.bind_eq_some_iff.mp h
      obtain ⟨rest, hrest, rfl⟩ := Option.map_eq_some_iff.mp h
      obtain ⟨hstarts, hend⟩ := ih hrest
      rw [next_ns hu hnext] at hstarts hend
      constructor
      · intro j hj
        cases j with
        | zero => simp
        | succ j =>
          rw [List.getElem_cons_succ, hstarts j (by simpa using hj)]
          push_cast
          ring
      · rw [List.length_cons]
        push_cast
        linarith
    · cases h
      simpa using by omega

/-- The buckets of a range: aligned, of one length, and as many as cover it. -/
structure Covers (interval : Interval) (unit : Int) (fromTime toTime : DateTime) (days : List DateTime) (base : Int) : Prop where
  starts : ∀ j (hj : j < days.length), fromDatetime days[j] = base + j * unit
  unit_pos : 0 < unit
  base_le : base ≤ fromDatetime fromTime
  covers : ∀ us, us < fromDatetime toTime → us < base + days.length * unit
  trunc : ∀ us, base ≤ us → dateTrunc us interval = base + (us - base) / unit * unit

theorem buckets_cover {interval : Interval} {unit : Int} (hu : unitUs interval = some unit) {fromTime toTime : DateTime}
    (hlt : fromTime.ns < toTime.ns) {days : List DateTime} (h : buckets C fromTime toTime interval = some days) :
    ∃ first rest, days = first :: rest ∧ Covers interval unit fromTime toTime days (fromDatetime first) := by
  obtain ⟨first, hfirst, hdays⟩ := Option.bind_eq_some_iff.mp h
  obtain ⟨hstarts, hend⟩ := bucketsFrom_spec hu hdays
  -- the first bucket starts at a multiple of the unit, and holds the range's start
  have hbase : ∃ q : Int, first.ns = (q * unit + if interval = .week then weekOriginUs else 0) * 1000 ∧ first.ns ≤ fromTime.ns := by
    cases interval with
    | month => cases hu
    | hour | day | week =>
      cases hu
      have heq := ofNs_eq_some.mp hfirst
      simp only [floorTo, nsPerHour, nsPerDay] at heq
      first
      | refine ⟨(fromTime.ns) / 3600000000000, ?_⟩
        simp only [hourUs, reduceCtorEq, if_false]
        omega
      | refine ⟨(fromTime.ns) / 86400000000000, ?_⟩
        simp only [dayUs, hourUs, reduceCtorEq, if_false]
        omega
      | refine ⟨(fromTime.ns + 259200000000000) / 604800000000000, ?_⟩
        simp only [weekUs, weekOriginUs, dayUs, hourUs, if_true]
        omega
  obtain ⟨q, hq, hle⟩ := hbase
  cases days with
  | nil =>
    simp only [List.length_nil, Nat.cast_zero, zero_mul, add_zero] at hend
    omega
  | cons d rest =>
    have hd : d.ns = first.ns := (hstarts 0 (Nat.zero_lt_succ _)).trans (by simp)
    have hus : fromDatetime d = q * unit + if interval = .week then weekOriginUs else 0 := by
      rw [fromDatetime, hd, hq, Int.mul_ediv_cancel _ (by decide)]
    have hpos : 0 < unit := by cases interval <;> cases hu <;> decide
    refine ⟨d, rest, rfl, ?_, hpos, ?_, ?_, ?_⟩
    · intro j hj
      rw [hus, fromDatetime, hstarts j hj, hq, ← mul_assoc, ← add_mul, Int.mul_ediv_cancel _ (by decide)]
    · simp only [fromDatetime]
      omega
    · intro us hlt
      have hend' : toTime.ns ≤ (fromDatetime d + (d :: rest).length * unit) * 1000 := by
        rw [hus, add_mul, ← hq, mul_assoc]
        exact hend
      simp only [fromDatetime] at hlt hend' ⊢
      omega
    · intro us hle
      rw [hus]
      cases interval with
      | month => cases hu
      | hour | day | week =>
        cases hu
        simp only [dateTrunc, floorTo, weekUs, weekOriginUs, dayUs, hourUs, reduceCtorEq, if_false, if_true]
        omega

end buckets

section masks

theorem bitOr_testBit (masks : List Nat) (j : Nat) : (bitOr masks).testBit j = masks.any (·.testBit j) := by
  induction masks with
  | nil => simp [bitOr]
  | cons m masks ih => rw [bitOr, List.foldr_cons, Nat.testBit_or, List.any_cons, ← ih, bitOr]

theorem bitOr_ne_zero (masks : List Nat) : bitOr masks ≠ 0 ↔ ∃ m ∈ masks, m ≠ 0 := by
  induction masks with
  | nil => simp [bitOr]
  | cons m masks ih =>
    rw [bitOr, List.foldr_cons, Ne, Nat.or_eq_zero_iff, not_and_or, ← Ne, ← Ne]
    rw [bitOr] at ih
    rw [ih]
    simp

theorem bit_testBit {word j : Nat} {i : Int} (hj : j < 64) : (bit word i).testBit j = true ↔ i = 64 * word + j := by
  rw [bit]
  split
  · rw [Nat.one_shiftLeft, Nat.testBit_two_pow, decide_eq_true_eq]
    omega
  · simp only [Nat.zero_testBit, Bool.false_eq_true, false_iff]
    omega

theorem bit_ne_zero {word : Nat} {i : Int} : bit word i ≠ 0 ↔ 64 * (word : Int) ≤ i ∧ i < 64 * word + 64 := by
  rw [bit]
  split
  · rename_i h
    simpa [Nat.one_shiftLeft] using h
  · rename_i h
    simpa using h

variable {U : Type} (plan : Plan U) (base unit : Int) (words : Nat)

/-- The masks hold the buckets of these rows, and the flag whether one is before the range. -/
structure Seen.Of (R : Row U → Prop) (seen : Seen) : Prop where
  prev : seen.prev = true ↔ ∃ row, R row ∧ bucketIndex plan base unit row < 0
  bits : ∀ word < words, ∀ j < 64, (seen.masks.getD word 0).testBit j = true ↔
    ∃ row, R row ∧ bucketIndex plan base unit row = 64 * word + j
  nonzero : ∀ word < words, seen.masks.getD word 0 ≠ 0 ↔
    ∃ row, R row ∧ 64 * (word : Int) ≤ bucketIndex plan base unit row ∧ bucketIndex plan base unit row < 64 * word + 64
  length : seen.masks.length = words

variable {plan base unit words}

private theorem getD_get {l : List Nat} {word : Nat} (h : word < l.length) : l.getD word 0 = l[word] := by
  simp [List.getD, h]

private theorem getD_range (f : Nat → Nat) {word : Nat} (h : word < words) : ((List.range words).map f).getD word 0 = f word := by
  simp [List.getD, h]

/-- Folding what was seen folds the rows it was seen in. -/
theorem Seen.of_merged {β : Type} {id : String} {l : List β} {prev : β → Bool} {mask : β → Nat → Nat} {R : β → Row U → Prop}
    (hprev : ∀ x ∈ l, prev x = true ↔ ∃ row, R x row ∧ bucketIndex plan base unit row < 0)
    (hbits : ∀ x ∈ l, ∀ word < words, ∀ j < 64, (mask x word).testBit j = true ↔
      ∃ row, R x row ∧ bucketIndex plan base unit row = 64 * word + j)
    (hnonzero : ∀ x ∈ l, ∀ word < words, mask x word ≠ 0 ↔
      ∃ row, R x row ∧ 64 * (word : Int) ≤ bucketIndex plan base unit row ∧ bucketIndex plan base unit row < 64 * word + 64) :
    Seen.Of plan base unit words (fun row => ∃ x ∈ l, R x row)
      ⟨id, l.any prev, (List.range words).map fun word => bitOr (l.map fun x => mask x word)⟩ := by
  constructor
  · rw [List.any_eq_true]
    constructor
    · rintro ⟨x, hx, hp⟩
      obtain ⟨row, hr, hi⟩ := (hprev x hx).mp hp
      exact ⟨row, ⟨x, hx, hr⟩, hi⟩
    · rintro ⟨row, ⟨x, hx, hr⟩, hi⟩
      exact ⟨x, hx, (hprev x hx).mpr ⟨row, hr, hi⟩⟩
  · intro word hw j hj
    rw [getD_range _ hw, bitOr_testBit, List.any_map, List.any_eq_true]
    constructor
    · rintro ⟨x, hx, hb⟩
      obtain ⟨row, hr, hi⟩ := (hbits x hx word hw j hj).mp hb
      exact ⟨row, ⟨x, hx, hr⟩, hi⟩
    · rintro ⟨row, ⟨x, hx, hr⟩, hi⟩
      exact ⟨x, hx, (hbits x hx word hw j hj).mpr ⟨row, hr, hi⟩⟩
  · intro word hw
    rw [getD_range _ hw, bitOr_ne_zero]
    constructor
    · rintro ⟨m, hm, hne⟩
      obtain ⟨x, hx, rfl⟩ := List.mem_map.mp hm
      obtain ⟨row, hr, hi⟩ := (hnonzero x hx word hw).mp hne
      exact ⟨row, ⟨x, hx, hr⟩, hi⟩
    · rintro ⟨row, ⟨x, hx, hr⟩, hi⟩
      exact ⟨_, List.mem_map_of_mem hx, (hnonzero x hx word hw).mpr ⟨row, hr, hi⟩⟩
  · simp

theorem Seen.Of.congr {R R' : Row U → Prop} {seen : Seen} (h : seen.Of plan base unit words R) (hR : ∀ row, R row ↔ R' row) :
    seen.Of plan base unit words R' := by
  have : R = R' := funext fun row => propext (hR row)
  rwa [← this]

theorem Seen.Of.hasBit {R : Row U → Prop} {seen : Seen} (h : seen.Of plan base unit words R) {index : Nat}
    (hi : index < 64 * words) : Explore.hasBit seen.masks index = true ↔ ∃ row, R row ∧ bucketIndex plan base unit row = index := by
  rw [Explore.hasBit, h.bits _ (by omega) _ (Nat.mod_lt _ (by decide))]
  have hindex : (64 * ((index / 64 : Nat) : Int) + ((index % 64 : Nat) : Int)) = index := by
    omega
  rw [hindex]

theorem Seen.Of.any_ne_zero {R : Row U → Prop} {seen : Seen} (h : seen.Of plan base unit words R) :
    (seen.masks.any (· ≠ 0)) = true ↔
      ∃ row, R row ∧ 0 ≤ bucketIndex plan base unit row ∧ bucketIndex plan base unit row < 64 * words := by
  have hmem : ∀ word < words, seen.masks.getD word 0 ∈ seen.masks := fun word hw => by
    rw [getD_get (h.length.symm ▸ hw)]
    exact List.getElem_mem _
  rw [List.any_eq_true]
  constructor
  · rintro ⟨m, hm, hne⟩
    obtain ⟨word, hw, rfl⟩ := List.mem_iff_getElem.mp hm
    have hlt : word < words := h.length ▸ hw
    rw [← getD_get hw] at hne
    obtain ⟨row, hr, hlo, hhi⟩ := (h.nonzero word hlt).mp (by simpa using hne)
    exact ⟨row, hr, by omega, by omega⟩
  · rintro ⟨row, hr, hlo, hhi⟩
    have hw : (bucketIndex plan base unit row / 64).toNat < words := by omega
    exact ⟨_, hmem _ hw, by simpa using (h.nonzero _ hw).mpr ⟨row, hr, by omega, by omega⟩⟩

end masks

section persons
variable {U : Type} {overrides : String → Option String} {plan : Plan U} {base unit : Int} {words : Nat}
  {pages : List (Row U)}

theorem seenIds_of {seen : Seen} (h : seen ∈ seenIds plan base unit words pages) :
    seen.Of plan base unit words fun row => row ∈ pages ∧ row.distinctId = seen.id := by
  obtain ⟨g, hg, rfl⟩ := List.mem_map.mp h
  obtain ⟨-, hrows⟩ := mem_groups.mp hg
  refine (Seen.of_merged (R := fun x row => row = x) ?_ ?_ ?_).congr fun row => ?_
  · intro x _
    simp
  · intro x _ word _ j hj
    simp [bit_testBit hj]
  · intro x _ word _
    simp [bit_ne_zero]
  · rw [hrows]
    simp

variable (plan base unit words) in
theorem exists_seenId {row : Row U} (h : row ∈ pages) : ∃ seen ∈ seenIds plan base unit words pages, seen.id = row.distinctId := by
  obtain ⟨g, hg, hkey⟩ : ∃ g ∈ groups Row.distinctId pages, g.1 = row.distinctId := exists_group h
  exact ⟨_, List.mem_map_of_mem hg, hkey⟩

theorem seenPersons_of {seen : Seen} (h : seen ∈ seenPersons overrides words (seenIds plan base unit words pages)) :
    seen.Of plan base unit words fun row => row ∈ pages ∧ row.person overrides = seen.id := by
  obtain ⟨g, hg, rfl⟩ := List.mem_map.mp h
  obtain ⟨-, hrows⟩ := mem_groups.mp hg
  have hids : ∀ x ∈ g.2, x ∈ seenIds plan base unit words pages ∧ personOf overrides x.id = g.1 := fun x hx => by
    rw [hrows] at hx
    simpa using hx
  refine (Seen.of_merged (R := fun x row => row ∈ pages ∧ row.distinctId = x.id) (fun x hx => (seenIds_of (hids x hx).1).prev)
    (fun x hx => (seenIds_of (hids x hx).1).bits) (fun x hx => (seenIds_of (hids x hx).1).nonzero)).congr fun row => ?_
  constructor
  · rintro ⟨x, hx, hr, hid⟩
    refine ⟨hr, ?_⟩
    rw [Row.person, hid]
    exact (hids x hx).2
  · rintro ⟨hr, hperson⟩
    obtain ⟨x, hx, hid⟩ := exists_seenId plan base unit words hr
    refine ⟨x, ?_, hr, hid.symm⟩
    rw [hrows, List.mem_filter]
    refine ⟨hx, ?_⟩
    rw [hid]
    simpa [Row.person] using hperson

/-- The persons who have some pageview of a kind are those distinct among these pageviews. -/
theorem countP_seenPersons {c : Seen → Bool} {P : Row U → Bool}
    (hc : ∀ seen ∈ seenPersons overrides words (seenIds plan base unit words pages),
      c seen = true ↔ ∃ row ∈ pages, row.person overrides = seen.id ∧ P row = true) :
    (seenPersons overrides words (seenIds plan base unit words pages)).countP c =
      ((pages.filter P).map (Row.person overrides)).dedup.length := by
  have hids : ((seenPersons overrides words (seenIds plan base unit words pages)).map Seen.id).Nodup := by
    have hfst : (seenPersons overrides words (seenIds plan base unit words pages)).map Seen.id =
        (groups (fun seen => personOf overrides seen.id) (seenIds plan base unit words pages)).map Prod.fst := by
      simp [seenPersons, Function.comp_def]
    rw [hfst]
    exact groups_nodup
  rw [List.countP_eq_length_filter, ← List.length_map (f := Seen.id)]
  apply List.Perm.length_eq
  rw [List.perm_ext_iff_of_nodup (hids.sublist (List.filter_sublist.map _)) (List.nodup_dedup _)]
  intro id
  rw [List.mem_dedup, List.mem_map, List.mem_map]
  constructor
  · rintro ⟨seen, hs, rfl⟩
    obtain ⟨hmem, hcs⟩ := List.mem_filter.mp hs
    obtain ⟨row, hr, hperson, hP⟩ := (hc seen hmem).mp hcs
    exact ⟨row, List.mem_filter.mpr ⟨hr, hP⟩, hperson⟩
  · rintro ⟨row, hr, rfl⟩
    obtain ⟨hr, hP⟩ := List.mem_filter.mp hr
    obtain ⟨x, hx, hid⟩ := exists_seenId plan base unit words hr
    obtain ⟨g, hg, hkey⟩ : ∃ g ∈ groups (fun seen => personOf overrides seen.id) (seenIds plan base unit words pages),
        g.1 = personOf overrides x.id := exists_group hx
    have hs := List.mem_map_of_mem (f := fun g : String × List Seen => Seen.mk g.1 (g.2.any Seen.prev)
      ((List.range words).map fun word => bitOr (g.2.map fun seen => seen.masks.getD word 0))) hg
    have hperson : g.1 = row.person overrides := by
      rw [hkey, hid]
      rfl
    exact ⟨_, List.mem_filter.mpr ⟨hs, (hc _ hs).mpr ⟨row, hr, hperson.symm, hP⟩⟩, hperson⟩

end persons
end Hoglet.Explore
