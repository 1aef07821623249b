import Hoglet.Query.Trends.General

/-! The masks of activity bits count the distinct persons of every bucket: each person's words hold the granules of all
of the person's distinct ids, and a window is a span of bits. -/
namespace Hoglet.Query.Trends
open Explore (bit bitOr hasBit personOf bit_testBit bitOr_testBit)

/-! Spans of bits. -/
section spans

private theorem and_ne_zero {a b : Nat} : a &&& b ≠ 0 ↔ ∃ j, a.testBit j = true ∧ b.testBit j = true := by
  constructor
  · intro h
    obtain ⟨j, hj⟩ := Nat.exists_testBit_of_ne_zero h
    rw [Nat.testBit_and, Bool.and_eq_true] at hj
    exact ⟨j, hj⟩
  · rintro ⟨j, ha, hb⟩ hzero
    have hj := congrArg (·.testBit j) hzero
    simp [ha, hb] at hj

/-- The mask of one turn of the scan. -/
private theorem turn_testBit {offset take j : Nat} (h : offset + take ≤ 64) :
    (if take = 64 then 2^64 - 1 else (2^take - 1) <<< offset).testBit j = true ↔ offset ≤ j ∧ j < offset + take := by
  split
  · have hoffset : offset = 0 := by omega
    rw [Nat.testBit_two_pow_sub_one, decide_eq_true_eq]
    omega
  · rw [Nat.testBit_shiftLeft, Nat.testBit_two_pow_sub_one, Bool.and_eq_true, decide_eq_true_eq, decide_eq_true_eq]
    omega

private theorem spanHasBitFrom_iff {words : List Nat} {hi room start : Nat} (h : hi ≤ start + room) :
    spanHasBitFrom words hi room start = true ↔ ∃ b, start ≤ b ∧ b < hi ∧ hasBit words b = true := by
  induction room generalizing start with
  | zero =>
    rw [spanHasBitFrom]
    simp only [Bool.false_eq_true, false_iff]
    rintro ⟨b, hle, hlt, -⟩
    omega
  | succ room ih =>
    rw [spanHasBitFrom]
    split
    · rename_i hlt
      extract_lets take mask
      have htake : 0 < take ∧ take ≤ 64 - start % 64 ∧ take ≤ hi - start := by
        have := Nat.mod_lt start (show 0 < 64 by decide)
        omega
      have hword : (words[start / 64]?.any fun bits => bits &&& mask ≠ 0) = true ↔
          ∃ b, start ≤ b ∧ b < start + take ∧ hasBit words b = true := by
        have hbit : ∀ b, start ≤ b → b < start + take → hasBit words b = (words.getD (start / 64) 0).testBit (b % 64) := by
          intro b hle hlt
          have hdiv : b / 64 = start / 64 := by omega
          rw [hasBit, hdiv]
        have hmask : ∀ j, mask.testBit j = true ↔ start % 64 ≤ j ∧ j < start % 64 + take := fun j => turn_testBit (by omega)
        cases hbits : words[start / 64]? with
        | none =>
          simp only [Option.any_none, Bool.false_eq_true, false_iff]
          rintro ⟨b, hle, hlt, hb⟩
          rw [hbit b hle hlt, List.getD_eq_getElem?_getD, hbits] at hb
          simp at hb
        | some bits =>
          rw [Option.any_some, decide_eq_true_eq, and_ne_zero]
          constructor
          · rintro ⟨j, hj, hm⟩
            obtain ⟨hlo, hhi⟩ := (hmask j).mp hm
            have hmod : (start + (j - start % 64)) % 64 = j := by omega
            refine ⟨start + (j - start % 64), by omega, by omega, ?_⟩
            rw [hbit _ (by omega) (by omega), hmod, List.getD_eq_getElem?_getD, hbits]
            exact hj
          · rintro ⟨b, hle, hlt, hb⟩
            rw [hbit b hle hlt, List.getD_eq_getElem?_getD, hbits] at hb
            exact ⟨b % 64, hb, (hmask _).mpr (by omega)⟩
      split
      · rename_i hany
        obtain ⟨b, hle, hlt', hb⟩ := hword.mp hany
        simp only [true_iff]
        exact ⟨b, hle, by omega, hb⟩
      · rename_i hany
        rw [ih (by omega)]
        constructor
        · rintro ⟨b, hle, hrest⟩
          exact ⟨b, by omega, hrest⟩
        · rintro ⟨b, hle, hlt', hb⟩
          refine ⟨b, ?_, hlt', hb⟩
          by_contra hsoon
          exact hany (hword.mpr ⟨b, hle, by omega, hb⟩)
    · simp only [Bool.false_eq_true, false_iff]
      rintro ⟨b, hle, hlt, -⟩
      omega

theorem spanHasBit_iff {words : List Nat} {lo hi : Nat} : spanHasBit words lo hi = true ↔ ∃ b, lo ≤ b ∧ b < hi ∧ hasBit words b = true :=
  spanHasBitFrom_iff (by omega)

end spans

/-! The granules of a person. -/
section active
variable {ctx : Ctx} {q : TrendsQuery} {top : Option Top} {index : Event → Int} {fromUs : Int} {words : Nat} {events : List Event}

variable (index fromUs words) in
/-- The masks hold the granules of these events, and the flag whether one is in the range. -/
structure Active.Of (R : Event → Prop) (active : Active) : Prop where
  bits : ∀ b < 64 * words, hasBit active.masks b = true ↔ ∃ e, R e ∧ index e = b
  inRange : active.inRange = true ↔ ∃ e, R e ∧ fromUs ≤ e.ts

theorem wordBit_testBit {word j : Nat} {i : Int} (hw : word < words) (hj : j < 64) (hi : 0 ≤ i) :
    (wordBit words word i).testBit j = true ↔ i = 64 * word + j := by
  rw [wordBit]
  split
  · rw [Nat.one_shiftLeft, Nat.testBit_two_pow, decide_eq_true_eq]
    omega
  · exact bit_testBit hj

variable (index) in
/-- Folding masks folds the events that they hold. -/
private theorem merged_bits {β : Type} {l : List β} {mask : β → Nat → Nat} {R : β → Event → Prop}
    (h : ∀ x ∈ l, ∀ word < words, ∀ j < 64, (mask x word).testBit j = true ↔ ∃ e, R x e ∧ index e = 64 * word + j) {b : Nat}
    (hb : b < 64 * words) : hasBit ((List.range words).map fun word => bitOr (l.map fun x => mask x word)) b = true ↔
      ∃ e, (∃ x ∈ l, R x e) ∧ index e = b := by
  have hword : b / 64 < words := by omega
  have hsplit : (64 * ((b / 64 : Nat) : Int) + ((b % 64 : Nat) : Int)) = b := by omega
  rw [hasBit, List.getD_eq_getElem?_getD, List.getElem?_map, List.getElem?_range hword, Option.map_some, Option.getD_some,
    bitOr_testBit, List.any_map, List.any_eq_true]
  constructor
  · rintro ⟨x, hx, hbit⟩
    obtain ⟨e, hR, hi⟩ := (h x hx _ hword _ (Nat.mod_lt _ (by decide))).mp hbit
    exact ⟨e, ⟨x, hx, hR⟩, hi.trans hsplit⟩
  · rintro ⟨e, ⟨x, hx, hR⟩, hi⟩
    exact ⟨x, hx, (h x hx _ hword _ (Nat.mod_lt _ (by decide))).mpr ⟨e, hR, hi.trans hsplit.symm⟩⟩

variable (hindex : ∀ e ∈ events, 0 ≤ index e)
include hindex

theorem activeIds_of {active : Active} (h : active ∈ activeIds ctx q index fromUs words top events) :
    active.Of index fromUs words fun e => e ∈ events ∧ e.distinctId = active.id ∧ breakdownKey ctx q top e = active.breakdown := by
  obtain ⟨g, hg, rfl⟩ := List.mem_map.mp h
  have hmem : ∀ e, e ∈ g.2 ↔ e ∈ events ∧ e.distinctId = g.1.1 ∧ breakdownKey ctx q top e = g.1.2 := fun e => by
    rw [(mem_groups.mp hg).2, List.mem_filter, decide_eq_true_eq, Prod.ext_iff]
  constructor
  · intro b hb
    rw [merged_bits index (R := fun x e => e = x) ?_ hb]
    · simp only [exists_eq_right', hmem]
    · intro x hx word hw j hj
      rw [wordBit_testBit hw hj (hindex x ((hmem x).mp hx).1)]
      simp
  · rw [List.any_eq_true]
    simp only [hmem, decide_eq_true_eq]

variable (ctx q top index fromUs words) in
omit hindex in
theorem exists_activeId {e : Event} (he : e ∈ events) : ∃ active ∈ activeIds ctx q index fromUs words top events,
    active.id = e.distinctId ∧ active.breakdown = breakdownKey ctx q top e := by
  obtain ⟨g, hg, hkey⟩ : ∃ g ∈ groups (fun e => (e.distinctId, breakdownKey ctx q top e)) events,
    g.1 = (e.distinctId, breakdownKey ctx q top e) := exists_group he
  exact ⟨_, List.mem_map_of_mem hg, by rw [hkey], by rw [hkey]⟩

omit hindex in
/-- The distinct ids of a person and breakdown value have the person's events. -/
private theorem ids_have {g : (String × Option String) × List Active}
    (hg : g ∈ groups (fun active => (personOf ctx.overrides active.id, active.breakdown)) (activeIds ctx q index fromUs words top events)) (e : Event) :
    (∃ active ∈ g.2, e ∈ events ∧ e.distinctId = active.id ∧ breakdownKey ctx q top e = active.breakdown) ↔
      e ∈ events ∧ ctx.person e = g.1.1 ∧ breakdownKey ctx q top e = g.1.2 := by
  have hmem : ∀ active, active ∈ g.2 ↔ active ∈ activeIds ctx q index fromUs words top events ∧
      personOf ctx.overrides active.id = g.1.1 ∧ active.breakdown = g.1.2 := fun active => by
    rw [(mem_groups.mp hg).2, List.mem_filter, decide_eq_true_eq, Prod.ext_iff]
  constructor
  · rintro ⟨active, ha, he, hid, hkey⟩
    obtain ⟨-, hperson, hbreakdown⟩ := (hmem active).mp ha
    refine ⟨he, ?_, hkey.trans hbreakdown⟩
    rw [Ctx.person, hid]
    exact hperson
  · rintro ⟨he, hperson, hkey⟩
    obtain ⟨active, ha, hid, hbreakdown⟩ := exists_activeId ctx q top index fromUs words he
    refine ⟨active, (hmem active).mpr ⟨ha, ?_, hbreakdown.trans hkey⟩, he, hid.symm, hbreakdown.symm⟩
    rw [hid]
    exact hperson

omit hindex in
private theorem exists_event {active : Active} (h : active ∈ activePersons ctx words (activeIds ctx q index fromUs words top events)) :
    ∃ e, e ∈ events ∧ ctx.person e = active.id ∧ breakdownKey ctx q top e = active.breakdown := by
  obtain ⟨g, hg, rfl⟩ := List.mem_map.mp h
  obtain ⟨⟨id, hid, hkey⟩, hrows⟩ := mem_groups.mp hg
  obtain ⟨g', hg', rfl⟩ := List.mem_map.mp hid
  obtain ⟨⟨e, he, hekey⟩, -⟩ := mem_groups.mp hg'
  rw [← hekey] at hkey
  exact ⟨e, he, congrArg Prod.fst hkey, congrArg Prod.snd hkey⟩

theorem activePersons_of {active : Active}
    (h : active ∈ activePersons ctx words (activeIds ctx q index fromUs words top events)) :
    active.Of index fromUs words fun e => e ∈ events ∧ ctx.person e = active.id ∧ breakdownKey ctx q top e = active.breakdown := by
  obtain ⟨g, hg, rfl⟩ := List.mem_map.mp h
  have hids : ∀ active ∈ g.2, active ∈ activeIds ctx q index fromUs words top events := fun active ha => by
    rw [(mem_groups.mp hg).2] at ha
    exact (List.mem_filter.mp ha).1
  constructor
  · intro b hb
    rw [merged_bits index (R := fun active e => e ∈ events ∧ e.distinctId = active.id ∧ breakdownKey ctx q top e = active.breakdown) ?_ hb]
    · simp only [ids_have hg]
    · intro active ha word hw j hj
      have hbit := (activeIds_of hindex (hids active ha)).bits (64 * word + j) (by omega)
      have hdiv : (64 * word + j) / 64 = word := by omega
      have hmod : (64 * word + j) % 64 = j := by omega
      rw [hasBit, hdiv, hmod] at hbit
      rw [hbit]
      push_cast
      rfl
  · rw [List.any_eq_true]
    constructor
    · rintro ⟨active, ha, hr⟩
      obtain ⟨e, he, hle⟩ := (activeIds_of hindex (hids active ha)).inRange.mp hr
      exact ⟨e, (ids_have hg e).mp ⟨active, ha, he⟩, hle⟩
    · rintro ⟨e, he, hle⟩
      obtain ⟨active, ha, he⟩ := (ids_have hg e).mpr he
      exact ⟨active, ha, (activeIds_of hindex (hids active ha)).inRange.mpr ⟨e, he, hle⟩⟩

omit hindex in
/-- The persons whose masks pass a test that some of their events passes are the distinct persons of such events. -/
theorem countP_activePersons (key : Option String) (c : Active → Bool) (Q : Event → Bool)
    (hc : ∀ active ∈ activePersons ctx words (activeIds ctx q index fromUs words top events), active.breakdown = key →
      (c active = true ↔ ∃ e, (e ∈ events ∧ ctx.person e = active.id ∧ breakdownKey ctx q top e = active.breakdown) ∧ Q e = true)) :
    (activePersons ctx words (activeIds ctx q index fromUs words top events)).countP (fun active => active.breakdown = key && c active) =
      ((events.filter fun e => breakdownKey ctx q top e = key && Q e).map ctx.person).dedup.length := by
  have hgroups := countP_groups Active.breakdown (activeIds ctx q index fromUs words top events)
    (fun active => personOf ctx.overrides active.id) key
    (fun active => events.any fun e => e.distinctId = active.id && breakdownKey ctx q top e = active.breakdown && Q e) (p := fun g => g.1.2 = key && c ⟨g.1.1, g.1.2, (List.range words).map fun word => bitOr (g.2.map fun active => active.masks.getD word 0),
      g.2.any Active.inRange⟩) (fun g hg => by
      rw [Bool.and_eq_true, decide_eq_true_eq]
      refine and_congr_right fun hkey => (hc _ (List.mem_map_of_mem hg) hkey).trans ?_
      simp only [← ids_have hg, List.any_eq_true, Bool.and_eq_true, decide_eq_true_eq]
      constructor
      · rintro ⟨e, ⟨active, ha, he, hid, hbreakdown⟩, hQ⟩
        exact ⟨active, ha, e, he, ⟨hid, hbreakdown⟩, hQ⟩
      · rintro ⟨active, ha, e, he, ⟨hid, hbreakdown⟩, hQ⟩
        exact ⟨e, ⟨active, ha, he, hid, hbreakdown⟩, hQ⟩)
  rw [activePersons, List.countP_map]
  refine Eq.trans ?_ (hgroups.trans ?_)
  · rfl
  · apply length_dedup_congr
    intro person
    rw [List.mem_map, List.mem_map]
    simp only [List.mem_filter, Bool.and_eq_true, List.any_eq_true, decide_eq_true_eq]
    constructor
    · rintro ⟨active, ⟨-, hkey, e, he, ⟨hid, hbreakdown⟩, hQ⟩, rfl⟩
      refine ⟨e, ⟨he, hbreakdown.trans hkey, hQ⟩, ?_⟩
      rw [Ctx.person, hid]
    · rintro ⟨e, ⟨he, hkey, hQ⟩, rfl⟩
      obtain ⟨active, ha, hid, hbreakdown⟩ := exists_activeId ctx q top index fromUs words he
      refine ⟨active, ⟨ha, hbreakdown.trans hkey, e, he, ⟨hid.symm, hbreakdown.symm⟩, hQ⟩, ?_⟩
      rw [hid]
      rfl

end active

/-! The counts of the mask rows. -/
section counts
variable {ctx : Ctx} {persons : List Active}

/-- The mask rows that pass a test count the persons whose masks do. -/
private theorem maskRows_sum (c : Option String → List Nat → Bool → Bool) :
    ((maskRows persons).map fun row => if c row.breakdown row.bits row.inRange then row.count else 0).sum =
      persons.countP fun active => c active.breakdown active.masks active.inRange := by
  rw [maskRows, List.map_map]
  refine (@sum_groups_length _ _ _ (fun active : Active => (active.breakdown, active.masks, active.inRange)) persons
    (fun k => c k.1 k.2.1 k.2.2 = true) _).trans ?_
  simp only [Bool.decide_eq_true]

private theorem sum_filter {α : Type} (p : α → Bool) (f : α → Nat) (l : List α) :
    ((l.filter p).map f).sum = (l.map fun a => if p a then f a else 0).sum := by
  induction l with
  | nil => rfl
  | cons a l ih => by_cases hp : p a = true <;> simp [hp, ih]

variable {g : Option String × List MaskRow} (hg : g ∈ ctx.arrange (groups MaskRow.breakdown (ctx.arrange (maskRows persons))))
include hg

/-- The same for the mask rows of one breakdown value. -/
private theorem group_sum (c : List Nat → Bool → Bool) :
    (g.2.map fun row => if c row.bits row.inRange then row.count else 0).sum =
      persons.countP fun active => active.breakdown = g.1 && c active.masks active.inRange := by
  have hrows := (mem_groups.mp ((ctx.arrange_perm _).mem_iff.mp hg)).2
  rw [hrows, sum_filter, (((ctx.arrange_perm (maskRows persons)).map _).sum_eq), ← maskRows_sum fun key bits inRange => key = g.1 && c bits inRange]
  congr 1
  apply List.map_congr_left
  intro row _
  by_cases hkey : row.breakdown = g.1 <;> simp [hkey]

private theorem bucketCounts_get (spans : List (Nat × Nat)) (p : Nat) : (bucketCounts spans g.2)[p]? =
    spans[p]?.map fun span => persons.countP fun active => active.breakdown = g.1 && spanHasBit active.masks span.1 span.2 := by
  have hfold : ∀ (rows : List MaskRow) (counts : List Nat), counts.length = spans.length →
      (rows.foldl (fun counts row => List.zipWith (fun slot span => if spanHasBit row.bits span.1 span.2 then slot + row.count else slot)
        counts spans) counts)[p]? = spans[p]?.map fun span => counts.getD p 0 +
          (rows.map fun row => if spanHasBit row.bits span.1 span.2 then row.count else 0).sum := by
    intro rows
    induction rows with
    | nil =>
      intro counts hlen
      by_cases hp : p < spans.length
      · simp [hp, hlen]
      · simp [hp, hlen]
    | cons row rows ih =>
      intro counts hlen
      rw [List.foldl_cons, ih _ (by rw [List.length_zipWith, hlen, min_self])]
      by_cases hp : p < spans.length
      · simp only [List.getElem?_eq_getElem hp, Option.map_some, List.getD_eq_getElem?_getD, List.getElem?_zipWith,
          List.getElem?_eq_getElem (hlen.symm ▸ hp), Option.getD_some, List.map_cons, List.sum_cons]
        split <;> simp [Nat.add_assoc]
      · rw [List.getElem?_eq_none (not_lt.mp hp)]
        rfl
  rw [bucketCounts, hfold g.2 _ (by simp)]
  cases hspan : spans[p]? with
  | none => rfl
  | some span =>
    obtain ⟨hp, -⟩ := List.getElem?_eq_some_iff.mp hspan
    rw [Option.map_some, Option.map_some, group_sum hg fun bits _ => spanHasBit bits span.1 span.2]
    simp [hp]

private theorem wholeCount_eq (math : Math) : wholeCount math g.2 =
    persons.countP fun active => active.breakdown = g.1 && (math.windowDays.isNone || active.inRange) := by
  rw [wholeCount, sum_filter, group_sum hg fun _ inRange => math.windowDays.isNone || inRange]

end counts

/-- The mask rows answer as their persons do. -/
private theorem maskedRows_answer {ctx : Ctx} {node : EventNode} {period : Period} {span : Int → Nat × Nat} {persons : List Active}
    (cell : Int → Option String → Nat) (whole : Option String → Nat)
    (hcell : ∀ bucket ∈ period.buckets, ∀ key, (persons.countP fun active => active.breakdown = key &&
      spanHasBit active.masks (span bucket).1 (span bucket).2) = cell bucket key)
    (hwhole : ∀ key, (persons.countP fun active => active.breakdown = key && (node.math.windowDays.isNone || active.inRange)) = whole key) :
    Answer period.buckets (fun bucket key => (cell bucket key : Rat)) (fun key => (whole key : Rat))
      (maskedRows ctx node period (period.buckets.map span) (maskRows persons)) := by
  have hslot : ∀ g ∈ ctx.arrange (groups MaskRow.breakdown (ctx.arrange (maskRows persons))), ∀ bucket count,
      (bucket, count) ∈ period.buckets.zip (bucketCounts (period.buckets.map span) g.2) ↔
        bucket ∈ period.buckets ∧ count = cell bucket g.1 := by
    intro g hg bucket count
    have hget : ∀ p : Nat, (bucketCounts (period.buckets.map span) g.2)[p]? = (period.buckets[p]?).map fun bucket => cell bucket g.1 := by
      intro p
      rw [bucketCounts_get hg, List.getElem?_map]
      cases hb : period.buckets[p]? with
      | none => rfl
      | some bucket => exact congrArg some (hcell bucket (List.mem_of_getElem? hb) g.1)
    rw [List.mem_iff_getElem?]
    simp only [List.getElem?_zip_eq_some, hget, Option.map_eq_some_iff]
    constructor
    · rintro ⟨p, hb, bucket', hb', rfl⟩
      rw [hb] at hb'
      cases hb'
      exact ⟨List.mem_of_getElem? hb, rfl⟩
    · rintro ⟨hb, rfl⟩
      obtain ⟨p, hp⟩ := List.mem_iff_getElem?.mp hb
      exact ⟨p, hp, bucket, hp, rfl⟩
  have hgroup : ∀ key, (∃ active ∈ persons, active.breakdown = key) →
      ∃ g ∈ ctx.arrange (groups MaskRow.breakdown (ctx.arrange (maskRows persons))), g.1 = key := by
    rintro key ⟨active, ha, hkey⟩
    obtain ⟨triple, ht, htkey⟩ : ∃ g ∈ groups (fun active : Active => (active.breakdown, active.masks, active.inRange)) persons,
      g.1 = (active.breakdown, active.masks, active.inRange) := exists_group ha
    have hrow := List.mem_map_of_mem (f := fun g : (Option String × List Nat × Bool) × List Active => MaskRow.mk g.1.1 g.1.2.1 g.1.2.2 g.2.length) ht
    obtain ⟨g, hg, hgkey⟩ : ∃ g ∈ groups MaskRow.breakdown (ctx.arrange (maskRows persons)), g.1 = triple.1.1 :=
      exists_group ((ctx.arrange_perm (maskRows persons)).mem_iff.mpr hrow)
    refine ⟨g, (ctx.arrange_perm _).mem_iff.mpr hg, ?_⟩
    rw [hgkey, ← hkey]
    exact congrArg Prod.fst htkey
  have hsome : ∀ (key : Option String) (c : Active → Bool), (persons.countP fun active => active.breakdown = key && c active) ≠ 0 →
      ∃ active ∈ persons, active.breakdown = key := by
    intro key c hne
    obtain ⟨active, ha, hc⟩ := List.countP_pos_iff.mp (Nat.pos_of_ne_zero hne)
    rw [Bool.and_eq_true, decide_eq_true_eq] at hc
    exact ⟨active, ha, hc.1⟩
  generalize hgroups : ctx.arrange (groups MaskRow.breakdown (ctx.arrange (maskRows persons))) = perBucket at hslot hgroup
  have hwholes : ∀ g ∈ perBucket, wholeCount node.math g.2 = whole g.1 := fun g hg => by
    rw [wholeCount_eq (hgroups ▸ hg), hwhole]
  have hcells : ∀ g ∈ perBucket, ∀ row ∈ ((period.buckets.zip (bucketCounts (period.buckets.map span) g.2)).filter fun slot => 0 < slot.2).map
      (fun slot => (⟨false, some slot.1, g.1, some slot.2⟩ : Row)), row.whole = false ∧
        ∃ bucket, row.bucket = some bucket ∧ row.value = some (cell bucket row.breakdown : Rat) := by
    intro g hg row hr
    obtain ⟨⟨bucket, count⟩, hs, rfl⟩ := List.mem_map.mp hr
    obtain ⟨-, rfl⟩ := (hslot g hg bucket count).mp (List.mem_filter.mp hs).1
    exact ⟨rfl, bucket, rfl, rfl⟩
  have hall : ∀ bucket ∈ period.buckets, ∀ key, (cell bucket key : Rat) ≠ 0 → ∃ g ∈ perBucket, g.1 = key ∧
      (⟨false, some bucket, key, some (cell bucket key : Rat)⟩ : Row) ∈ ((period.buckets.zip (bucketCounts (period.buckets.map span) g.2)).filter
        fun slot => 0 < slot.2).map fun slot => ⟨false, some slot.1, g.1, some slot.2⟩ := by
    intro bucket hb key hne
    have hpos : cell bucket key ≠ 0 := fun hzero => hne (by rw [hzero]; rfl)
    obtain ⟨g, hg, rfl⟩ := hgroup key (hsome key _ (by rw [hcell bucket hb key]; exact hpos))
    refine ⟨g, hg, rfl, List.mem_map.mpr ⟨(bucket, cell bucket g.1), List.mem_filter.mpr ⟨(hslot g hg _ _).mpr ⟨hb, rfl⟩, ?_⟩, rfl⟩⟩
    exact decide_eq_true (Nat.pos_of_ne_zero hpos)
  have hallWhole : ∀ key, (whole key : Rat) ≠ 0 → ∃ g ∈ perBucket, g.1 = key := by
    intro key hne
    exact hgroup key (hsome key _ (by rw [hwhole key]; exact fun hzero => hne (by rw [hzero]; rfl)))
  unfold maskedRows
  simp only [hgroups]
  split
  · constructor
    · intro row hr hw
      obtain ⟨g, hg, hr⟩ := List.mem_flatMap.mp hr
      rcases List.mem_append.mp hr with hr | hr
      · exact (hcells g hg row hr).2
      · rw [List.mem_singleton.mp hr] at hw
        cases hw
    · intro row hr hw
      obtain ⟨g, hg, hr⟩ := List.mem_flatMap.mp hr
      rcases List.mem_append.mp hr with hr | hr
      · rw [(hcells g hg row hr).1] at hw
        cases hw
      · rw [List.mem_singleton.mp hr, hwholes g hg]
    · intro row hr
      cases hr
    · intro bucket hb key hne
      obtain ⟨g, hg, rfl, hrow⟩ := hall bucket hb key hne
      exact ⟨_, List.mem_flatMap.mpr ⟨g, hg, List.mem_append_left _ hrow⟩, rfl, rfl, rfl⟩
    · intro key hne
      obtain ⟨g, hg, rfl⟩ := hallWhole key hne
      exact .inl ⟨_, List.mem_flatMap.mpr ⟨g, hg, List.mem_append_right _ (List.mem_singleton_self _)⟩, rfl, rfl⟩
  · constructor
    · intro row hr _
      obtain ⟨g, hg, hr⟩ := List.mem_flatMap.mp hr
      exact (hcells g hg row hr).2
    · intro row hr hw
      obtain ⟨g, hg, hr⟩ := List.mem_flatMap.mp hr
      rw [(hcells g hg row hr).1] at hw
      cases hw
    · intro row hr
      obtain ⟨g, hg, rfl⟩ := List.mem_map.mp hr
      rw [hwholes g hg]
    · intro bucket hb key hne
      obtain ⟨g, hg, rfl, hrow⟩ := hall bucket hb key hne
      exact ⟨_, List.mem_flatMap.mpr ⟨g, hg, hrow⟩, rfl, rfl, rfl⟩
    · intro key hne
      obtain ⟨g, hg, rfl⟩ := hallWhole key hne
      exact .inr ⟨_, List.mem_map_of_mem hg, rfl⟩

section answer
variable {C : Chrono} {ctx : Ctx} {q : TrendsQuery} {node : EventNode} {period : Period} {top : Option Top}

variable (ctx q top) in
/-- Whatever granules span the buckets, the masks have the persons of every bucket and of the range. -/
private theorem granules_answer {loadFrom : Int} {granules : Nat} {index : Int → Int} {span : Int → Nat × Nat}
    (h : Granules C node.math period loadFrom granules index span) (hspan : ∀ bucket, (span bucket).2 ≤ granules)
    (hdau : node.math.windowDays = none → loadFrom = period.range.fromUs) :
    PersonAnswer C ctx q node period top (maskedRows ctx node period (period.buckets.map span) (maskRows
      (activePersons ctx ((granules + 63) / 64) (activeIds ctx q (fun e => index e.ts) period.range.fromUs ((granules + 63) / 64) top
        ((ctx.relation loadFrom period.range.toUs).filter (predicate ctx q node)))))) := by
  generalize hevents : (ctx.relation loadFrom period.range.toUs).filter (predicate ctx q node) = events
  have hmem : ∀ e, e ∈ events ↔ (e ∈ ctx.events ∧ loadFrom ≤ e.ts ∧ e.ts < period.range.toUs) ∧ predicate ctx q node e = true := fun e => by
    rw [← hevents, List.mem_filter, mem_relation]
  have hindex : ∀ e ∈ events, 0 ≤ index e.ts := fun e he =>
    (h.index_lt e.ts ((hmem e).mp he).1.2.1 ((hmem e).mp he).1.2.2).1
  apply maskedRows_answer (fun bucket key => (bucketPersons C ctx q node period top bucket key).length)
    fun key => (rangePersons ctx q node period top key).length
  · intro bucket hb key
    refine (countP_activePersons key (fun active => spanHasBit active.masks (span bucket).1 (span bucket).2)
      (fun e => counts C node.math period bucket e.ts) fun active ha _ => ?_).trans ?_
    · rw [spanHasBit_iff]
      have hbits := (activePersons_of hindex ha).bits
      have hle := hspan bucket
      constructor
      · rintro ⟨b, hlo, hhi, hb'⟩
        obtain ⟨e, he, hi⟩ := (hbits b (by omega)).mp hb'
        refine ⟨e, he, (h.span bucket hb e.ts ((hmem e).mp he.1).1.2.1 ((hmem e).mp he.1).1.2.2).mpr ?_⟩
        rw [hi, Int.toNat_natCast]
        exact ⟨hlo, hhi⟩
      · rintro ⟨e, he, hc⟩
        obtain ⟨hlo, hhi⟩ := (h.span bucket hb e.ts ((hmem e).mp he.1).1.2.1 ((hmem e).mp he.1).1.2.2).mp hc
        refine ⟨(index e.ts).toNat, hlo, hhi, (hbits _ (by omega)).mpr ⟨e, he, ?_⟩⟩
        exact (Int.toNat_of_nonneg (hindex e he.1)).symm
    · apply length_bucketPersons
      intro person
      rw [mem_bucketPersons, List.mem_map]
      simp only [List.mem_filter, Bool.and_eq_true, decide_eq_true_eq, hmem]
      constructor
      · rintro ⟨e, ⟨⟨⟨he, -⟩, hpred⟩, hkey, hc⟩, rfl⟩
        exact ⟨e, he, hc, ⟨hpred, hkey⟩, rfl⟩
      · rintro ⟨e, he, hc, ⟨hpred, hkey⟩, rfl⟩
        exact ⟨e, ⟨⟨⟨he, h.loaded bucket hb e.ts hc⟩, hpred⟩, hkey, hc⟩, rfl⟩
  · intro key
    refine (countP_activePersons key (fun active => node.math.windowDays.isNone || active.inRange)
      (fun e => period.range.fromUs ≤ e.ts) fun active ha _ => ?_).trans ?_
    · have hrange := (activePersons_of hindex ha).inRange
      simp only [decide_eq_true_eq]
      rw [← hrange, Bool.or_eq_true]
      refine ⟨fun hor => hor.elim (fun hnone => ?_) id, .inr⟩
      -- without a window only the range is read
      obtain ⟨e, he⟩ := exists_event ha
      have hload := hdau (Option.isNone_iff_eq_none.mp hnone)
      exact hrange.mpr ⟨e, he, hload ▸ ((hmem e).mp he.1).1.2.1⟩
    · apply length_rangePersons
      intro person
      rw [mem_rangePersons, List.mem_map]
      simp only [List.mem_filter, Bool.and_eq_true, decide_eq_true_eq, hmem, mem_relation]
      constructor
      · rintro ⟨e, ⟨⟨⟨he, -, hlt⟩, hpred⟩, hkey, hle⟩, rfl⟩
        exact ⟨e, ⟨he, hle, hlt⟩, ⟨hpred, hkey⟩, rfl⟩
      · rintro ⟨e, ⟨he, hle, hlt⟩, ⟨hpred, hkey⟩, rfl⟩
        exact ⟨e, ⟨⟨⟨he, h.loadFrom_le.trans hle, hlt⟩, hpred⟩, hkey, hle⟩, rfl⟩

/-- The mask path has the persons of every bucket and of the range. -/
theorem activeMasks_answer (hp : period.Covered C) {rows : Masked} (h : activeMasks C ctx q node period top = some rows) :
    PersonAnswer C ctx q node period top rows := by
  obtain ⟨us, hmask, h⟩ := Option.bind_eq_some_iff.mp h
  obtain ⟨first, hfirst, h⟩ := Option.bind_eq_some_iff.mp h
  obtain ⟨⟨loadFrom, base, unit⟩, hgranules, rfl⟩ := Option.map_eq_some_iff.mp h
  obtain ⟨first', base', unit', hfits⟩ := fits_of_maskFrom hmask
  obtain rfl : first' = first := Option.some.inj (hfits.head.symm.trans hfirst)
  have hsame := hfits.granules.symm.trans hgranules
  simp only [Option.some.injEq, Prod.mk.injEq] at hsame
  obtain ⟨rfl, rfl, rfl⟩ := hsame
  have hspan : ∀ bucket, (granuleSpan C node.math period.range.interval base' unit'
      (max ((period.range.toUs - base' + unit' - 1) / unit') 1).toNat bucket).2 ≤
        (max ((period.range.toUs - base' + unit' - 1) / unit') 1).toNat := fun bucket => min_le_right _ _
  cases hd : node.math.windowDays with
  | none =>
    have hload : us = period.range.fromUs := by
      rw [maskGranules, hd] at hgranules
      dsimp only at hgranules
      split at hgranules <;> cases hgranules <;> rfl
    have hanswer := granules_answer ctx q top (hfits.bucketGranules hp hd) hspan fun _ => hload
    simpa only [Option.isNone_none, if_true] using hanswer
  | some days =>
    have hanswer := granules_answer ctx q top (hfits.windowGranules hd) hspan (by simp [hd])
    simpa only [Option.isNone_some, Bool.false_eq_true, if_false] using hanswer

end answer
end Hoglet.Query.Trends
