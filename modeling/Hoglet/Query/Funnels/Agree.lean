import Hoglet.Query.Funnels.Gather
import Hoglet.Query.Funnels.Thinned

/-! The three scans settle every person once, each on the events in the exact order. -/
namespace Hoglet.Query.Funnels
variable {q : FunnelsQuery} {ctx : Ctx} {std : Std}

/-- `ORDER BY ts, uuid`. -/
def exactLe (a b : Row) : Bool := a.ts < b.ts ∨ a.ts = b.ts ∧ a.uuid ≤ b.uuid

/-- A person's events in (timestamp, uuid) order. -/
def exactRows (rows : List Row) (person : String) : List Row := (rows.filter (·.person = person)).mergeSort exactLe

/-- What `best_attempt` gives for a person. -/
def personOutcome (q : FunnelsQuery) (rows : List Row) (person : String) : Option PersonOutcome :=
  q.outcome ⟨person, (exactRows rows person).map q.entry⟩

/-- What `best_attempt` gives for every person. -/
def perPerson (q : FunnelsQuery) (rows : List Row) : List PersonOutcome :=
  (rows.map Row.person).dedup.filterMap (personOutcome q rows)

/-- Events of one person with the same timestamp and uuid look the same to the query. -/
def Tidy (q : FunnelsQuery) (rows : List Row) : Prop :=
  ∀ a ∈ rows, ∀ b ∈ rows, a.person = b.person → a.ts = b.ts → a.uuid = b.uuid → q.entry a = q.entry b

/-! Exact order. -/

theorem exactLe_trans (a b c : Row) (hab : exactLe a b = true) (hbc : exactLe b c = true) : exactLe a c = true := by
  simp only [exactLe, decide_eq_true_eq] at hab hbc ⊢
  rcases hab with hab | ⟨hab, huv⟩
  · left
    rcases hbc with hbc | ⟨hbc, -⟩ <;> omega
  · rcases hbc with hbc | ⟨hbc, hvw⟩
    · left
      omega
    · exact .inr ⟨hab.trans hbc, huv.trans hvw⟩

theorem exactLe_total (a b : Row) : (exactLe a b || exactLe b a) = true := by
  simp only [exactLe, Bool.or_eq_true, decide_eq_true_eq]
  rcases lt_trichotomy a.ts b.ts with hlt | heq | hlt
  · exact .inl (.inl hlt)
  · rcases le_total a.uuid b.uuid with hle | hle
    · exact .inl (.inr ⟨heq, hle⟩)
    · exact .inr (.inr ⟨heq.symm, hle⟩)
  · exact .inr (.inl hlt)

theorem exactLe_ts {a b : Row} (h : exactLe a b = true) : a.ts ≤ b.ts := by
  rcases of_decide_eq_true h with hlt | ⟨heq, -⟩
  · exact hlt.le
  · exact heq.le

theorem exactRows_perm (rows : List Row) (person : String) : (exactRows rows person).Perm (rows.filter (·.person = person)) :=
  List.mergeSort_perm ..

theorem exactRows_sorted (rows : List Row) (person : String) : (exactRows rows person).Pairwise fun a b => exactLe a b = true :=
  List.pairwise_mergeSort exactLe_trans exactLe_total _

/-- What looks the same wherever the exact order ties has one exact order. -/
theorem map_eq_of_exact {β : Type} {f : Row → β} {l l' : List Row} (hperm : l.Perm l')
    (hsame : ∀ a ∈ l, ∀ b ∈ l, a.ts = b.ts → a.uuid = b.uuid → f a = f b) (hl : l.Pairwise fun a b => exactLe a b = true)
    (hl' : l'.Pairwise fun a b => exactLe a b = true) : l.map f = l'.map f := by
  have hkeys : l.map (fun r => (r.ts, r.uuid, f r)) = l'.map fun r => (r.ts, r.uuid, f r) := by
    have hkey : ∀ l : List Row, l.Pairwise (fun a b => exactLe a b = true) → (l.map fun r => (r.ts, r.uuid, f r)).Pairwise
        fun a b => a.1 < b.1 ∨ a.1 = b.1 ∧ a.2.1 ≤ b.2.1 := fun l hl => List.pairwise_map.mpr (hl.imp fun h => of_decide_eq_true h)
    refine List.Perm.eq_of_pairwise (fun a b ha hb hab hba => ?_) (hkey l hl) (hkey l' hl') (hperm.map _)
    · obtain ⟨r, hr, rfl⟩ := List.mem_map.mp ha
      obtain ⟨r', hr', rfl⟩ := List.mem_map.mp hb
      dsimp only at hab hba
      have hts : r.ts = r'.ts := by omega
      have huuid : r.uuid = r'.uuid := by
        apply le_antisymm
        · rcases hab with hlt | hle
          · omega
          · exact hle.2
        · rcases hba with hlt | hle
          · omega
          · exact hle.2
      rw [hts, huuid, hsame r hr r' (hperm.mem_iff.mpr hr') hts huuid]
  have hsnd := congrArg (List.map fun k : Int × String × β => k.2.2) hkeys
  rwa [List.map_map, List.map_map] at hsnd

theorem Tidy.map_eq {rows : List Row} (h : Tidy q rows) (person : String) {l l' : List Row} (hperm : l.Perm l')
    (hl : ∀ r ∈ l, r ∈ rows ∧ r.person = person) (hsorted : l.Pairwise fun a b => exactLe a b = true)
    (hsorted' : l'.Pairwise fun a b => exactLe a b = true) : l.map q.entry = l'.map q.entry :=
  map_eq_of_exact hperm (fun a ha b hb => h a (hl a ha).1 b (hl b hb).1 ((hl a ha).2.trans (hl b hb).2.symm)) hsorted hsorted'

/-! Timestamp order. -/

private theorem untied_pair {first second : Entry} (hfirst : first.breakdown.isSome = q.hasBreakdown)
    (hsecond : second.breakdown.isSome = q.hasBreakdown) (hts : first.event.ts = second.event.ts)
    (h : (first.event.ts = second.event.ts && (first.event.mask ≠ second.event.mask ||
      q.hasBreakdown && first.breakdown ≠ second.breakdown)) = false) : first = second := by
  simp only [hts, decide_true, Bool.true_and, Bool.or_eq_false_iff, decide_eq_false_iff_not, not_not] at h
  have hevent : Event.mk first.event.ts first.event.mask = Event.mk second.event.ts second.event.mask := by rw [hts, h.1]
  have hbreakdown : first.breakdown = second.breakdown := by
    cases hhas : q.hasBreakdown with
    | true => simpa [hhas] using h.2
    | false =>
      rw [hhas, Option.isSome_eq_false_iff, Option.isNone_iff_eq_none] at hfirst hsecond
      rw [hfirst, hsecond]
  have hentry : Entry.mk ⟨first.event.ts, first.event.mask⟩ first.breakdown = ⟨second.event, second.breakdown⟩ := by
    rw [hevent, hbreakdown]
  exact hentry

private theorem tieMatters_false {entries : List Entry} (hbd : ∀ e ∈ entries, e.breakdown.isSome = q.hasBreakdown)
    (hsorted : entries.Pairwise fun a b => a.event.ts ≤ b.event.ts) (h : q.tieMatters entries = false) :
    ∀ a ∈ entries, ∀ b ∈ entries, a.event.ts = b.event.ts → a = b := by
  induction entries with
  | nil => exact fun a ha => by cases ha
  | cons first rest ih =>
    cases rest with
    | nil =>
      intro a ha b hb _
      rw [List.mem_singleton.mp ha, List.mem_singleton.mp hb]
    | cons second rest =>
      rw [FunnelsQuery.tieMatters, Bool.or_eq_false_iff] at h
      have hrest := ih (fun e he => hbd e (List.mem_cons_of_mem _ he)) (List.pairwise_cons.mp hsorted).2 h.2
      -- whatever has the first one's timestamp is the second one
      have hfirst : ∀ b ∈ second :: rest, first.event.ts = b.event.ts → first = b := by
        intro b hb hts
        have hle := (List.pairwise_cons.mp hsorted).1 second (List.mem_cons_self ..)
        have hle' : second.event.ts ≤ b.event.ts := by
          rcases List.mem_cons.mp hb with rfl | hb
          · exact le_rfl
          · exact (List.pairwise_cons.mp (List.pairwise_cons.mp hsorted).2).1 b hb
        have hsame := untied_pair (hbd first (List.mem_cons_self ..)) (hbd second (List.mem_cons_of_mem _ (List.mem_cons_self ..)))
          (hle.antisymm (hle'.trans_eq hts.symm)) h.1
        rw [hsame]
        exact hrest second (List.mem_cons_self ..) b hb (hsame ▸ hts)
      intro a ha b hb hts
      rcases List.mem_cons.mp ha with rfl | ha'
      · rcases List.mem_cons.mp hb with rfl | hb'
        · rfl
        · exact hfirst b hb' hts
      · rcases List.mem_cons.mp hb with rfl | hb'
        · exact (hfirst a ha' hts.symm).symm
        · exact hrest a ha' b hb' hts

theorem entry_isSome (row : Row) : (q.entry row).breakdown.isSome = q.hasBreakdown := Option.isSome_map

/-- Where no tie matters, any order by timestamp shows what the exact order shows. -/
theorem exact_of_untied {entries : List Entry} {l : List Row} (hperm : entries.Perm (l.map q.entry))
    (hsorted : entries.Pairwise fun a b => a.event.ts ≤ b.event.ts) (htie : q.tieMatters entries = false)
    (hl : l.Pairwise fun a b => exactLe a b = true) : entries = l.map q.entry := by
  have hbd : ∀ e ∈ entries, e.breakdown.isSome = q.hasBreakdown := fun e he => by
    obtain ⟨row, -, rfl⟩ := List.mem_map.mp (hperm.mem_iff.mp he)
    exact entry_isSome row
  have hsorted' : (l.map q.entry).Pairwise fun a b => a.event.ts ≤ b.event.ts := List.pairwise_map.mpr (hl.imp exactLe_ts)
  refine List.Perm.eq_of_pairwise (fun a b ha hb hab hba => ?_) hsorted hsorted' hperm
  exact tieMatters_false hbd hsorted htie a ha b (hperm.mem_iff.mpr hb) (le_antisymm hab hba)

/-! Every person once. -/

/-- The persons of a kind that have rows, each with all of their rows in some order. -/
structure Complete (q : FunnelsQuery) (rows : List Row) (P : String → Prop) (people : List Collected) : Prop where
  nodup : (people.map Collected.person).Nodup
  mem : ∀ p, p ∈ people.map Collected.person ↔ P p ∧ ∃ r ∈ rows, r.person = p
  entries : ∀ c ∈ people, c.entries.Perm ((rows.filter (·.person = c.person)).map q.entry)

theorem Complete.congr {rows : List Row} {P Q : String → Prop} {people : List Collected} (h : Complete q rows P people)
    (hP : ∀ p, P p ↔ Q p) : Complete q rows Q people :=
  ⟨h.nodup, fun p => (h.mem p).trans (and_congr_left' (hP p)), h.entries⟩

/-- The order of the persons, and of the rows of each, is free. -/
theorem Complete.reorder {rows : List Row} {P : String → Prop} {people : List Collected} (h : Complete q rows P people)
    {people' : List Collected} (hperm : people'.Perm people) {f : List Entry → List Entry} (hf : ∀ l, (f l).Perm l) :
    Complete q rows P (people'.map fun c => ⟨c.person, f c.entries⟩) := by
  have hpersons : (people'.map fun c : Collected => (⟨c.person, f c.entries⟩ : Collected)).map Collected.person =
      people'.map Collected.person := by
    rw [List.map_map]
    rfl
  constructor
  · rw [hpersons, (hperm.map _).nodup_iff]
    exact h.nodup
  · intro p
    rw [hpersons, (hperm.map _).mem_iff]
    exact h.mem p
  · intro c hc
    obtain ⟨c', hc', rfl⟩ := List.mem_map.mp hc
    exact (hf _).trans (h.entries c' (hperm.mem_iff.mp hc'))

/-- A query of some persons delivers all the rows of each. -/
private theorem delivered_filter {rows delivered : List Row} {P : String → Bool} (h : delivered.Perm (rows.filter fun r => P r.person))
    {person : String} (hP : P person = true) : (delivered.filter (·.person = person)).Perm (rows.filter (·.person = person)) := by
  refine (h.filter _).trans (List.Perm.of_eq ?_)
  rw [List.filter_filter]
  apply List.filter_congr
  intro r _
  by_cases hsame : r.person = person
  · simp [hsame, hP]
  · simp [hsame]

theorem gather_complete {rows delivered : List Row} {P : String → Bool}
    (h : delivered.Perm (rows.filter fun r => P r.person)) : Complete q rows (P · = true) (gather q delivered) := by
  obtain ⟨persons, hnodup, hmem, heq⟩ := gather_eq (q := q) delivered
  have hpersons : (gather q delivered).map Collected.person = persons := by
    rw [heq, List.map_map]
    exact List.map_id _
  constructor
  · rwa [hpersons]
  · intro p
    rw [hpersons, hmem]
    constructor
    · rintro ⟨r, hr, rfl⟩
      obtain ⟨hr, hP⟩ := List.mem_filter.mp (h.mem_iff.mp hr)
      exact ⟨hP, r, hr, rfl⟩
    · rintro ⟨hP, r, hr, rfl⟩
      exact ⟨r, h.mem_iff.mpr (List.mem_filter.mpr ⟨hr, hP⟩), rfl⟩
  · intro c hc
    rw [heq] at hc
    obtain ⟨p, hp, rfl⟩ := List.mem_map.mp hc
    obtain ⟨r, hr, rfl⟩ := (hmem p).mp hp
    exact (delivered_filter h (List.mem_filter.mp (h.mem_iff.mp hr)).2).map q.entry

/-- Whether a person belongs to a partition. -/
def inPartition (ctx : Ctx) (partitions partition : Nat) (person : String) : Bool :=
  if partitions ≤ 1 then true else ctx.hash person % partitions = partition

theorem rows_perm (q : FunnelsQuery) (ctx : Ctx) (only : String → Bool) (partitions partition : Nat) (order : OrderBy) :
    (ctx.rows (partCondition q ctx (fun row => only row.person) partitions partition) order).Perm
      ((ctx.events.filter q.kept).filter fun r => inPartition ctx partitions partition r.person && only r.person) := by
  rw [List.filter_filter]
  exact ctx.rows_perm _ order

theorem rows_complete (ctx : Ctx) (only : String → Bool) (partitions partition : Nat) (order : OrderBy) :
    Complete q (ctx.events.filter q.kept) (fun p => inPartition ctx partitions partition p = true ∧ only p = true)
      (gather q (ctx.rows (partCondition q ctx (fun row => only row.person) partitions partition) order)) := by
  exact (gather_complete (rows_perm q ctx only partitions partition order)).congr fun p => by rw [Bool.and_eq_true]

/-- The partitions together have every person once. -/
theorem Complete.partitions {rows : List Row} (only : String → Bool) {partitions : Nat} (hpos : 0 < partitions)
    {people : Nat → List Collected} (h : ∀ k, Complete q rows (fun p => inPartition ctx partitions k p = true ∧ only p = true) (people k)) :
    Complete q rows (only · = true) ((List.range partitions).flatMap people) := by
  have hmem : ∀ p, p ∈ ((List.range partitions).flatMap people).map Collected.person ↔ only p = true ∧ ∃ r ∈ rows, r.person = p := by
    intro p
    rw [List.map_flatMap, List.mem_flatMap]
    constructor
    · rintro ⟨k, -, hp⟩
      obtain ⟨⟨-, honly⟩, hr⟩ := ((h k).mem p).mp hp
      exact ⟨honly, hr⟩
    · rintro ⟨honly, hr⟩
      by_cases hone : partitions ≤ 1
      · exact ⟨0, List.mem_range.mpr hpos, ((h 0).mem p).mpr ⟨⟨by rw [inPartition, if_pos hone], honly⟩, hr⟩⟩
      · refine ⟨ctx.hash p % partitions, List.mem_range.mpr (Nat.mod_lt _ hpos), ((h _).mem p).mpr ⟨⟨?_, honly⟩, hr⟩⟩
        rw [inPartition, if_neg hone]
        exact decide_eq_true rfl
  refine ⟨?_, hmem, fun c hc => ?_⟩
  · rw [List.map_flatMap, List.nodup_flatMap]
    refine ⟨fun k _ => (h k).nodup, List.nodup_range.pairwise_of_forall_ne fun k hk k' hk' hne p hp hp' => hne ?_⟩
    have hin := (((h k).mem p).mp hp).1.1
    have hin' := (((h k').mem p).mp hp').1.1
    rw [inPartition] at hin hin'
    split_ifs at hin hin' with hone
    · have hk := List.mem_range.mp hk
      have hk' := List.mem_range.mp hk'
      omega
    · exact (of_decide_eq_true hin).symm.trans (of_decide_eq_true hin')
  · obtain ⟨k, -, hc⟩ := List.mem_flatMap.mp hc
    exact (h k).entries c hc

/-! Each person's events in each scan. -/

private theorem mergeSort_ts (entries : List Entry) :
    (entries.mergeSort fun a b => a.event.ts ≤ b.event.ts).Pairwise fun a b => a.event.ts ≤ b.event.ts := by
  apply (List.pairwise_mergeSort _ _ entries).imp fun h => of_decide_eq_true h
  · intro a b c hab hbc
    exact decide_eq_true ((of_decide_eq_true hab).trans (of_decide_eq_true hbc))
  · intro a b
    rw [Bool.or_eq_true, decide_eq_true_eq, decide_eq_true_eq]
    exact le_total _ _

theorem sortByTime_perm (entries : List Entry) : (sortByTime q std entries).Perm entries := by
  rw [sortByTime]
  split_ifs
  · exact List.mergeSort_perm ..
  · exact std.sortUnstable_perm _

theorem sortByTime_sorted (entries : List Entry) : (sortByTime q std entries).Pairwise fun a b => a.event.ts ≤ b.event.ts := by
  rw [sortByTime]
  split_ifs
  · exact mergeSort_ts entries
  · exact std.sortUnstable_sorted _

theorem hash_sorted {condition : Row → Bool} {c : Collected} (h : c ∈ gather q (ctx.rows condition .hash)) :
    c.entries.Pairwise fun a b => a.event.ts ≤ b.event.ts := by
  obtain ⟨persons, -, -, heq⟩ := gather_eq (q := q) (ctx.rows condition .hash)
  rw [heq] at h
  obtain ⟨p, -, rfl⟩ := List.mem_map.mp h
  apply List.pairwise_map.mpr
  refine ((ctx.rows_sorted condition .hash).filter _).imp_of_mem fun {a b} ha hb hab => ?_
  have hperson : a.person = b.person := by
    simp only [List.mem_filter, decide_eq_true_eq] at ha hb
    exact ha.2.trans hb.2.symm
  rcases hab with hlt | ⟨-, hts⟩
  · rw [runHash, runHash, hperson] at hlt
    exact absurd hlt (lt_irrefl _)
  · exact hts

theorem ordered_exact (hrows : Tidy q ctx.events) (only : String → Bool) {partitions partition : Nat} {c : Collected}
    (h : c ∈ gather q (ctx.rows (partCondition q ctx (fun row => only row.person) partitions partition) .person)) :
    c.entries = (exactRows (ctx.events.filter q.kept) c.person).map q.entry := by
  obtain ⟨persons, -, hmem, heq⟩ := gather_eq (q := q)
    (ctx.rows (partCondition q ctx (fun row => only row.person) partitions partition) .person)
  rw [heq] at h
  obtain ⟨p, hp, rfl⟩ := List.mem_map.mp h
  obtain ⟨r, hr, rfl⟩ := (hmem p).mp hp
  have hperm := rows_perm q ctx only partitions partition .person
  have hP := (List.mem_filter.mp (hperm.mem_iff.mp hr)).2
  have hdelivered := delivered_filter (P := fun p => inPartition ctx partitions partition p && only p) hperm hP
  apply hrows.map_eq r.person (hdelivered.trans (exactRows_perm _ _).symm)
  · intro r' hr'
    obtain ⟨hr', hperson⟩ := List.mem_filter.mp (hdelivered.mem_iff.mp hr')
    exact ⟨(List.mem_filter.mp hr').1, of_decide_eq_true hperson⟩
  · refine ((ctx.rows_sorted _ .person).filter _).imp_of_mem fun {a b} ha hb hab => ?_
    have hperson : a.person = b.person := by
      simp only [List.mem_filter, decide_eq_true_eq] at ha hb
      exact ha.2.trans hb.2.symm
    rcases hab with hlt | ⟨-, hle⟩
    · rw [hperson] at hlt
      exact absurd hlt (lt_irrefl _)
    · exact decide_eq_true hle
  · exact exactRows_sorted _ _

/-! Outcomes. -/

theorem Complete.persons_perm {rows : List Row} {people : List Collected} (h : Complete q rows (fun _ => True) people) :
    (people.map Collected.person).Perm (rows.map Row.person).dedup := by
  rw [List.perm_ext_iff_of_nodup h.nodup (List.nodup_dedup _)]
  intro p
  rw [h.mem, List.mem_dedup, List.mem_map, true_and]

private theorem filterMap_exact {rows : List Row} {people : List Collected}
    (h : ∀ c ∈ people, c.entries = (exactRows rows c.person).map q.entry) :
    people.filterMap q.outcome = (people.map Collected.person).filterMap (personOutcome q rows) := by
  rw [List.filterMap_map]
  apply List.filterMap_congr
  intro c hc
  rw [Function.comp_apply, personOutcome, ← h c hc]

theorem analyzeOrdered_ok (hrows : Tidy q ctx.events) {tied : Option (List String)} {outcomes : List PersonOutcome}
    (h : analyzeOrdered q ctx tied = .ok outcomes) : ∃ people : List Collected,
      Complete q (ctx.events.filter q.kept) (fun p => ∀ tied' ∈ tied, p ∈ tied') people ∧
        outcomes = (people.map Collected.person).filterMap (personOutcome q (ctx.events.filter q.kept)) := by
  cases tied with
  | some tied =>
    refine ⟨_, (Complete.partitions tied.contains Nat.one_pos (rows_complete ctx tied.contains 1 · .person)).congr fun p => ?_, ?_⟩
    · simp
    · rw [orderedPartitions_ok h, List.nil_append]
      apply filterMap_exact
      intro c hc
      obtain ⟨k, -, hc⟩ := List.mem_flatMap.mp hc
      exact ordered_exact hrows tied.contains hc
  | none =>
    refine ⟨_, (Complete.partitions (fun _ => true) ctx.partitions_pos (rows_complete ctx (fun _ => true) ctx.partitions · .person)).congr
      fun p => ?_, ?_⟩
    · simp
    · rw [orderedPartitions_ok h, List.nil_append]
      apply filterMap_exact
      intro c hc
      obtain ⟨k, -, hc⟩ := List.mem_flatMap.mp hc
      exact ordered_exact hrows (fun _ => true) hc

/-- The persons settled at once and those that are read again are everyone. -/
theorem settled_perm (hrows : Tidy q ctx.events) {people : List Collected}
    (h : Complete q (ctx.events.filter q.kept) (fun _ => True) people)
    (hsorted : ∀ c ∈ people, c.entries.Pairwise fun a b => a.event.ts ≤ b.event.ts) {settled : Settled}
    (hs : settleRun q ctx people ⟨[], []⟩ false = (settled, false)) {outcomes : List PersonOutcome}
    (hw : withTied q ctx settled = .ok outcomes) : outcomes.Perm (perPerson q (ctx.events.filter q.kept)) := by
  obtain ⟨houtcomes, htied⟩ := settleRun_ok hs
  rw [List.nil_append] at houtcomes htied
  -- the persons read again
  obtain ⟨persons, hperm, hread⟩ : ∃ persons : List String, persons.Perm settled.tied ∧
      outcomes = settled.outcomes ++ persons.filterMap (personOutcome q (ctx.events.filter q.kept)) := by
    rw [withTied] at hw
    cases hempty : settled.tied.isEmpty with
    | true =>
      rw [hempty, if_pos rfl] at hw
      cases hw
      exact ⟨[], by rw [List.isEmpty_iff.mp hempty], (List.append_nil _).symm⟩
    | false =>
      rw [hempty, if_neg Bool.false_ne_true] at hw
      obtain ⟨again, hagain, hw⟩ := bind_ok.mp hw
      cases hw
      obtain ⟨again', hcomplete, rfl⟩ := analyzeOrdered_ok hrows hagain
      refine ⟨_, ?_, rfl⟩
      rw [List.perm_ext_iff_of_nodup hcomplete.nodup (htied ▸ h.nodup.sublist (List.filter_sublist.map _))]
      intro p
      rw [hcomplete.mem]
      constructor
      · exact fun hp => hp.1 _ rfl
      · intro hp
        refine ⟨fun tied' htied' => ?_, ((h.mem p).mp ?_).2⟩
        · cases htied'
          exact hp
        · rw [htied] at hp
          exact (List.filter_sublist.map _).subset hp
  have hfirst : settled.outcomes = ((people.filter fun c => !q.tieMatters c.entries).map Collected.person).filterMap
      (personOutcome q (ctx.events.filter q.kept)) := by
    rw [houtcomes]
    apply filterMap_exact
    intro c hc
    obtain ⟨hc, htie⟩ := List.mem_filter.mp hc
    apply exact_of_untied _ (hsorted c hc) (by simpa using htie) (exactRows_sorted _ _)
    exact (h.entries c hc).trans ((exactRows_perm _ _).symm.map _)
  rw [hread, hfirst, ← List.filterMap_append, perPerson]
  apply List.Perm.filterMap
  refine ((htied ▸ hperm).append_left _).trans (List.Perm.trans ?_ h.persons_perm)
  rw [← List.map_append]
  exact (List.perm_append_comm.trans (List.filter_append_perm _ _)).map _

/-! Rows that no scan asks for. -/

private theorem eventMatch_name {node : EventNode} {row : Row} {name : String} (hname : node.event = some name)
    (h : eventMatch node row = true) : row.event = name := by
  rw [eventMatch, hname] at h
  exact of_decide_eq_true h

theorem mask_eq_zero {row : Row} (h : q.kept row = false) : q.mask row = 0 := by
  rw [FunnelsQuery.kept, Bool.and_eq_false_iff] at h
  rcases h with h | h
  · -- the names of the steps and exclusions are others
    rw [FunnelsQuery.eventPrefilter] at h
    split_ifs at h with hnames
    simp only [List.contains_eq_mem, decide_eq_false_iff_not, List.mem_append, not_or] at h
    have hall := List.all_eq_true.mp hnames.2
    rw [FunnelsQuery.mask, Nat.add_eq_zero_iff, List.sum_eq_zero_iff, List.sum_eq_zero_iff]
    constructor
    · intro n hn
      obtain ⟨i, hi, rfl⟩ := List.mem_mapIdx.mp hn
      obtain ⟨name, hname⟩ := Option.isSome_iff_exists.mp (hall _ (List.getElem_mem hi))
      rw [if_neg]
      intro hmatch
      simp only [Bool.and_eq_true] at hmatch
      have hevent := eventMatch_name hname hmatch.1.1
      exact h.1 (hevent ▸ List.mem_filterMap.mpr ⟨_, List.getElem_mem hi, hname⟩)
    · intro n hn
      obtain ⟨i, hi, rfl⟩ := List.mem_mapIdx.mp hn
      rw [if_neg]
      intro hevent
      exact h.2 (List.mem_map.mpr ⟨_, List.getElem_mem hi, hevent.symm⟩)
  · rw [FunnelsQuery.keep] at h
    split at h
    · cases h
    · simpa using h
    · simpa using h

theorem kept_of_strict (h : q.funnelOrder = .strict) (row : Row) : q.kept row = true := by
  simp [FunnelsQuery.kept, FunnelsQuery.eventPrefilter, FunnelsQuery.keep, h]

/-- A person's own property is the same on all of their rows. -/
private theorem person_breakdown (h : q.personBreakdown = true) {person : String} (rows : List Row)
    (hperson : ∀ r ∈ rows, r.person = person) (hne : rows ≠ []) :
    ∃ text, (((rows.map q.entry)[0]?).bind Entry.breakdown).join = some (breakdownExpr (text person)) ∧
      q.breakdown.map Breakdown.text = some (.person text) := by
  rw [FunnelsQuery.personBreakdown] at h
  split at h
  · rename_i text limit hbreakdown
    cases rows with
    | nil => exact absurd rfl hne
    | cons first rest =>
      refine ⟨text, ?_, by rw [hbreakdown]; rfl⟩
      rw [← hperson first (List.mem_cons_self ..)]
      simp [FunnelsQuery.entry, hbreakdown, PropertyText.read]
  · cases h

theorem outcome_nil (person : String) : q.outcome ⟨person, []⟩ = none := rfl

/-- A person's outcome needs none of the rows that match nothing. -/
theorem outcome_filter {person : String} {rows : List Row} (hperson : ∀ r ∈ rows, r.person = person)
    (hsorted : rows.Pairwise fun a b => a.ts ≤ b.ts) :
    q.outcome ⟨person, rows.map q.entry⟩ = q.outcome ⟨person, (rows.filter q.kept).map q.entry⟩ := by
  by_cases hstrict : q.funnelOrder = .strict
  · rw [List.filter_eq_self.mpr fun r _ => kept_of_strict hstrict r]
  · obtain ⟨place, hthin, hget⟩ := filter_thinned (fun r => (q.entry r).event) q.kept rows fun r _ hmask => by
      by_contra hkept
      exact hmask (mask_eq_zero (by simpa using hkept))
    have hts : (rows.map fun r => (q.entry r).event).Pairwise fun a b => a.ts ≤ b.ts := List.pairwise_map.mpr hsorted
    have hbest : Option.Rel (SameAttempt place)
        (bestAttempt (rows.map fun r => (q.entry r).event) q.steps q.funnelWindow q.funnelOrder q.taints)
        (bestAttempt ((rows.filter q.kept).map fun r => (q.entry r).event) q.steps q.funnelWindow q.funnelOrder q.taints) :=
      bestAttempt_thinned hthin hts hstrict
    have hevents : ∀ l : List Row, (l.map q.entry).map Entry.event = l.map fun r => (q.entry r).event := fun l => by
      rw [List.map_map]
      rfl
    rw [FunnelsQuery.outcome, FunnelsQuery.outcome, hevents, hevents]
    revert hbest
    generalize bestAttempt (rows.map fun r => (q.entry r).event) q.steps q.funnelWindow q.funnelOrder q.taints = best
    generalize bestAttempt ((rows.filter q.kept).map fun r => (q.entry r).event) q.steps q.funnelWindow q.funnelOrder q.taints = thin
    intro hbest
    cases hbest with
    | none => rfl
    | some hsame =>
      obtain ⟨htimes, i, hthinAnchor, hanchor⟩ := hsame
      rw [Option.map_some, Option.map_some, htimes]
      congr 2
      have hplace := (place i).isLt.trans_eq (List.length_map _)
      have hthinPlace := i.isLt.trans_eq (List.length_map _)
      by_cases howner : q.personBreakdown = true
      · obtain ⟨text, hbd, htext⟩ := person_breakdown howner rows hperson (List.ne_nil_of_length_pos (by omega))
        obtain ⟨text', hbd', htext'⟩ := person_breakdown howner (rows.filter q.kept)
          (fun r hr => hperson r (List.mem_filter.mp hr).1) (List.ne_nil_of_length_pos (by omega))
        rw [htext] at htext'
        cases htext'
        rw [if_pos howner, if_pos howner, hbd, hbd']
      · rw [if_neg howner, if_neg howner, hthinAnchor, hanchor, List.getElem?_map, List.getElem?_map, hget]

theorem personOutcome_kept {rows : List Row} (hrows : Tidy q rows) (person : String) :
    personOutcome q rows person = personOutcome q (rows.filter q.kept) person := by
  have hperson : ∀ r ∈ exactRows rows person, r.person = person := fun r hr =>
    of_decide_eq_true (List.mem_filter.mp ((exactRows_perm rows person).mem_iff.mp hr)).2
  have hts : (exactRows rows person).Pairwise fun a b => a.ts ≤ b.ts := (exactRows_sorted rows person).imp exactLe_ts
  rw [personOutcome, outcome_filter hperson hts, personOutcome]
  congr 2
  apply hrows.map_eq person
  · refine ((exactRows_perm rows person).filter _).trans (List.Perm.trans (List.Perm.of_eq ?_) (exactRows_perm _ _).symm)
    rw [List.filter_filter, List.filter_filter]
    exact List.filter_congr fun r _ => Bool.and_comm ..
  · intro r hr
    have hr := (List.mem_filter.mp hr).1
    exact ⟨(List.mem_filter.mp ((exactRows_perm rows person).mem_iff.mp hr)).1, hperson r hr⟩
  · exact (exactRows_sorted rows person).filter _
  · exact exactRows_sorted _ _

/-- Dropping the rows that match nothing, and those outside the prefilter, changes nothing. -/
theorem perPerson_kept {rows : List Row} (hrows : Tidy q rows) : (perPerson q (rows.filter q.kept)).Perm (perPerson q rows) := by
  have hsome : ∀ p, p ∉ ((rows.filter q.kept).map Row.person).dedup → personOutcome q (rows.filter q.kept) p = none := by
    intro p hp
    have hnil : (rows.filter q.kept).filter (·.person = p) = [] := by
      apply List.filter_eq_nil_iff.mpr
      intro r hr heq
      exact hp (List.mem_dedup.mpr (List.mem_map.mpr ⟨r, hr, of_decide_eq_true heq⟩))
    rw [personOutcome, exactRows, hnil, List.mergeSort_nil]
    exact outcome_nil p
  have hdedup : ((rows.map Row.person).dedup.filter (· ∈ ((rows.filter q.kept).map Row.person).dedup)).Perm
      ((rows.filter q.kept).map Row.person).dedup := by
    rw [List.perm_ext_iff_of_nodup ((List.nodup_dedup _).filter _) (List.nodup_dedup _)]
    intro p
    simp only [List.mem_filter, List.mem_dedup, decide_eq_true_eq, and_iff_right_iff_imp]
    exact fun hp => (List.filter_sublist.map _).subset hp
  rw [perPerson, perPerson]
  refine (hdedup.filterMap _).symm.trans (List.Perm.of_eq ?_)
  rw [List.filterMap_filter]
  apply List.filterMap_congr
  intro p _
  rw [personOutcome_kept hrows p]
  by_cases hp : p ∈ ((rows.filter q.kept).map Row.person).dedup
  · rw [if_pos (decide_eq_true hp)]
  · rw [if_neg (by simpa using hp), hsome p hp]

/-- Every partition has its persons' events, and they are everyone. -/
private theorem everyone {people : Nat → List Collected} (h : ∀ k, Complete q (ctx.events.filter q.kept)
    (fun p => inPartition ctx ctx.partitions k p = true ∧ true = true) (people k)) :
    Complete q (ctx.events.filter q.kept) (fun _ => True) ((List.range ctx.partitions).flatMap people) :=
  (Complete.partitions (fun _ => true) ctx.partitions_pos h).congr fun _ => by simp

theorem analyzeGathered_perm (hrows : Tidy q ctx.events) {outcomes : List PersonOutcome}
    (h : analyzeGathered q ctx std = .ok (some outcomes)) : outcomes.Perm (perPerson q (ctx.events.filter q.kept)) := by
  obtain ⟨settled, hsettled, h⟩ := bind_ok.mp h
  cases settled with
  | none => cases h
  | some settled =>
    obtain ⟨outcomes', hw, h⟩ := bind_ok.mp h
    cases h
    refine settled_perm hrows (everyone fun k => ?_) (fun c hc => ?_) (gatheredPartitions_ok hsettled) hw
    · exact (rows_complete ctx (fun _ => true) ctx.partitions k .none).reorder (std.drain_perm _) sortByTime_perm
    · obtain ⟨k, -, hc⟩ := List.mem_flatMap.mp hc
      obtain ⟨c', -, rfl⟩ := List.mem_map.mp hc
      exact sortByTime_sorted _

theorem analyzeByHash_perm (hrows : Tidy q ctx.events) {outcomes : List PersonOutcome}
    (h : analyzeByHash q ctx = .ok (some outcomes)) : outcomes.Perm (perPerson q (ctx.events.filter q.kept)) := by
  obtain ⟨settled, hsettled, h⟩ := bind_ok.mp h
  cases settled with
  | none => cases h
  | some settled =>
    obtain ⟨outcomes', hw, h⟩ := bind_ok.mp h
    cases h
    refine settled_perm hrows (everyone fun k => ?_) (fun c hc => ?_) (hashPartitions_ok hsettled fun _ => rfl) hw
    · exact rows_complete ctx (fun _ => true) ctx.partitions k .hash
    · obtain ⟨k, -, hc⟩ := List.mem_flatMap.mp hc
      exact hash_sorted hc

theorem analyzeOrdered_perm (hrows : Tidy q ctx.events) {outcomes : List PersonOutcome}
    (h : analyzeOrdered q ctx none = .ok outcomes) : outcomes.Perm (perPerson q (ctx.events.filter q.kept)) := by
  obtain ⟨people, hcomplete, rfl⟩ := analyzeOrdered_ok hrows h
  exact (hcomplete.congr (Q := fun _ => True) fun p => by simp).persons_perm.filterMap _

theorem analyzeOrdered_small (h : ctx.events.length ≤ maxStreamedRows) (tied : Option (List String)) :
    ∃ outcomes, analyzeOrdered q ctx tied = .ok outcomes := by
  cases tied with
  | none => exact orderedPartitions_small h ..
  | some tied => exact orderedPartitions_small h ..

theorem withTied_small (h : ctx.events.length ≤ maxStreamedRows) (settled : Settled) :
    ∃ outcomes, withTied q ctx settled = .ok outcomes := by
  rw [withTied]
  cases settled.tied.isEmpty with
  | true => exact ⟨settled.outcomes, rfl⟩
  | false =>
    obtain ⟨outcomes, houtcomes⟩ := analyzeOrdered_small (q := q) h (some settled.tied)
    exact ⟨settled.outcomes ++ outcomes, by rw [houtcomes]; rfl⟩

theorem analyzeGathered_small (std : Std) (h : ctx.events.length ≤ maxStreamedRows) : ∃ result, analyzeGathered q ctx std = .ok result := by
  obtain ⟨settled, hsettled⟩ := gatheredPartitions_small (q := q) std h (List.range ctx.partitions) ⟨[], []⟩
  cases settled with
  | none => exact ⟨none, bind_ok.mpr ⟨none, hsettled, rfl⟩⟩
  | some settled =>
    obtain ⟨outcomes, houtcomes⟩ := withTied_small (q := q) h settled
    exact ⟨some outcomes, bind_ok.mpr ⟨some settled, hsettled, bind_ok.mpr ⟨outcomes, houtcomes, rfl⟩⟩⟩

theorem analyzeByHash_small (h : ctx.events.length ≤ maxStreamedRows) : ∃ result, analyzeByHash q ctx = .ok result := by
  obtain ⟨settled, hsettled⟩ := hashPartitions_small (q := q) h (List.range ctx.partitions) ⟨[], []⟩ false
  cases settled with
  | none => exact ⟨none, bind_ok.mpr ⟨none, hsettled, rfl⟩⟩
  | some settled =>
    obtain ⟨outcomes, houtcomes⟩ := withTied_small (q := q) h settled
    exact ⟨some outcomes, bind_ok.mpr ⟨some settled, hsettled, bind_ok.mpr ⟨outcomes, houtcomes, rfl⟩⟩⟩

/-- A stable sort, and the map's entries as they came. -/
def stdStable : Std where
  sortUnstable entries := entries.mergeSort fun a b => a.event.ts ≤ b.event.ts
  sortUnstable_perm _ := List.mergeSort_perm ..
  sortUnstable_sorted := mergeSort_ts
  drain people := people
  drain_perm _ := .refl _

/-- Two steps of one person at one time, whose order only their uuids tell. -/
def tiedRows : List Row := [⟨"p", 0, "1", "signed up", ""⟩, ⟨"p", 0, "2", "paid", ""⟩]

def tiedCtx : Ctx where
  events := tiedRows
  hash _ := 0
  stream condition _ := [tiedRows.filter condition]
  perm condition _ := by rw [List.flatten_singleton]
  sorted condition order := by
    rw [List.flatten_singleton]
    apply List.Pairwise.filter
    cases order <;> simp [tiedRows, OrderBy.le, runHash]
  partitions := 1
  partitions_pos := Nat.one_pos
  funnelGatherBytes := 1000
  funnelMaxTied := 10

def tiedQuery : FunnelsQuery where
  series := [⟨some "signed up", none, fun _ => true⟩, ⟨some "paid", none, fun _ => true⟩]
  filters _ := true
  breakdown := none
  funnelWindow := 60
  funnelOrder := .ordered
  exclusions := []

end Hoglet.Query.Funnels
