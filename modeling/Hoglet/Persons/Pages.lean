import Hoglet.Capture.Accepted
import Hoglet.Persons.Cursors
import Hoglet.Projections.Surviving

/-! The pages of the persons list that a client sees who follows the cursors. -/
namespace Hoglet.Persons
open Capture Json
open Projections (Act PersonRow Step Tables)
open Paging (Serves Visited descending)

/-! What there is to list. -/
section listing
variable {ν U : Type} (K : Crates ν U) (extract : String → String → Option String) (s : Tables) (projectId : String) (search : Option String)

/-- The persons that a search is for. -/
def matching : List ((String × String) × PersonRow) :=
  s.persons.rows.filter fun m => m.1.1 = projectId && (searchText search).all (searched extract s projectId · m)

/-- Those after a position, newest first. -/
def remaining (after : Option PersonCursor) : List ((String × String) × PersonRow) :=
  (descending personKey (matching extract s projectId search)).filter fun m => after.all (·.isBefore m)

/-- A person as the store reads it. -/
def entryOf (limit : Nat) (m : (String × String) × PersonRow) : PersonListEntry ν :=
  ⟨⟨projectId, m.1.2, (decodeObject K m.2.properties).toOption.getD Map.empty, m.2.isIdentified, m.2.createdAt, m.2.firstSeenKey⟩,
    distinctIdsOn s projectId m.1.2 limit, m.2.lastSeen⟩

/-- A person as the list shows it. -/
def shownOf (m : (String × String) × PersonRow) : PersonSummary ν :=
  let entry := entryOf K s projectId listedDistinctIds m
  summary K entry.person entry.distinctIds entry.lastSeen

def positionOf (m : (String × String) × PersonRow) : PersonCursor := ⟨m.2.createdAt, m.1.2⟩

/-- The list as pages: what it answers a cursor with. -/
def nextPage (limit : Option Nat) (cursor : Option String) : Except ExploreError (List (PersonSummary ν) × Option (Option String)) :=
  (listRoute K extract s projectId search cursor limit).map fun answer => (answer.1, answer.2.map some)

variable {K extract s projectId search} {m n : (String × String) × PersonRow} {after : Option PersonCursor}

theorem isBefore_iff (cursor : PersonCursor) : cursor.isBefore m = true ↔ personKey m < toLex (cursor.createdAt, cursor.id) := by
  rw [personKey, Prod.Lex.toLex_lt_toLex, PersonCursor.isBefore, Bool.or_eq_true, Bool.and_eq_true, decide_eq_true_iff, decide_eq_true_iff,
    decide_eq_true_iff]

theorem isBefore_positionOf : (positionOf n).isBefore m = true ↔ personKey m < personKey n := isBefore_iff _

theorem mem_matching : m ∈ matching extract s projectId search ↔ s.person projectId m.1.2 = some m.2 ∧ m.1.1 = projectId ∧
    (searchText search).all (searched extract s projectId · m) = true := by
  obtain ⟨⟨pr, id⟩, row⟩ := m
  rw [matching, List.mem_filter, Bool.and_eq_true, decide_eq_true_iff, Tables.person, Table.get_eq_some]
  constructor
  · rintro ⟨hmem, rfl, hsearch⟩
    exact ⟨hmem, rfl, hsearch⟩
  · rintro ⟨hmem, rfl, hsearch⟩
    exact ⟨hmem, rfl, hsearch⟩

/-- A person is there once. -/
theorem personKeys_nodup : ((matching extract s projectId search).map personKey).Nodup := by
  have hkeys : ((matching extract s projectId search).map Prod.fst).Nodup := s.persons.unique.sublist (List.filter_sublist.map _)
  refine List.Nodup.map_on (fun m hm n hn heq => ?_) (List.Nodup.of_map Prod.fst hkeys)
  refine List.inj_on_of_nodup_map hkeys hm hn ?_
  have hid : m.1.2 = n.1.2 := congrArg (fun key => (ofLex key).2) heq
  exact Prod.ext ((mem_matching.mp hm).2.1.trans (mem_matching.mp hn).2.1.symm) hid

theorem remaining_falls : (remaining extract s projectId search after).Pairwise fun m n => personKey n < personKey m :=
  (Paging.pairwise_descending personKeys_nodup).filter _

theorem mem_remaining : m ∈ remaining extract s projectId search after ↔ m ∈ matching extract s projectId search ∧ after.all (·.isBefore m) = true := by
  rw [remaining, List.mem_filter, Paging.mem_descending]

theorem after_of_key_lt (hn : after.all (·.isBefore n) = true) (h : personKey m < personKey n) : after.all (·.isBefore m) = true := by
  cases after with
  | none => rfl
  | some cursor => exact (isBefore_iff cursor).mpr (h.trans ((isBefore_iff cursor).mp hn))

/-- What remains after the position of a person is what came after that person. -/
theorem remaining_append {front back : List ((String × String) × PersonRow)}
    (h : remaining extract s projectId search after = front ++ [n] ++ back) : remaining extract s projectId search (some (positionOf n)) = back := by
  have hn : after.all (·.isBefore n) = true := (mem_remaining.mp (h ▸ List.mem_append_left back (List.mem_append_right front List.mem_cons_self))).2
  have hsame : remaining extract s projectId search (some (positionOf n)) =
      (remaining extract s projectId search after).filter fun m => (positionOf n).isBefore m := by
    rw [remaining, remaining, List.filter_filter]
    refine List.filter_congr fun m _ => ?_
    rw [Option.all_some, Bool.eq_iff_iff, Bool.and_eq_true]
    exact ⟨fun hm => ⟨hm, after_of_key_lt hn (isBefore_positionOf.mp hm)⟩, And.left⟩
  have hfalls : (remaining extract s projectId search after).Pairwise fun m n => personKey n < personKey m := remaining_falls
  rw [h, List.pairwise_append, List.pairwise_append] at hfalls
  obtain ⟨⟨-, -, hfront⟩, -, hback⟩ := hfalls
  rw [hsame, h]
  refine Paging.filter_of_append (fun m hm => ?_) fun m hm => ?_
  · rw [Bool.eq_false_iff]
    intro hbefore
    rcases List.mem_append.mp hm with hm | hm
    · exact (isBefore_positionOf.mp hbefore).asymm (hfront m hm n List.mem_cons_self)
    · rw [List.mem_singleton.mp hm] at hbefore
      exact lt_irrefl _ (isBefore_positionOf.mp hbefore)
  · exact isBefore_positionOf.mpr (hback n (List.mem_append_right front List.mem_cons_self) m hm)

end listing

/-! What the requests answer. -/
section answers
variable {ν U : Type} {K : Crates ν U} {extract : String → String → Option String} {s : Tables} {projectId : String} {search : Option String}

/-- The columns of all persons are objects. -/
def Readable (K : Crates ν U) (s : Tables) : Prop :=
  ∀ projectId p row, s.person projectId p = some row → ∃ properties, decodeObject K row.properties = .ok properties

theorem listPersons_ok (hs : Readable K s) (after : Option PersonCursor) (limit distinctIdsPerPerson : Nat) :
    listPersons K extract s projectId search after limit distinctIdsPerPerson =
      .ok (((remaining extract s projectId search after).take (Nat.min (Nat.max limit 1) (maxPersonPage + 1))).map
        (entryOf K s projectId distinctIdsPerPerson)) := by
  have hmatching : (s.persons.rows.filter fun m => m.1.1 = projectId && after.all (·.isBefore m) && (searchText search).all (searched extract s projectId · m)) =
      (matching extract s projectId search).filter fun m => after.all (·.isBefore m) := by
    rw [matching, List.filter_filter]
    refine List.filter_congr fun m _ => ?_
    ac_rfl
  rw [listPersons, hmatching, Paging.descending_filter personKeys_nodup]
  refine mapM_ok fun m hm => ?_
  obtain ⟨properties, hproperties⟩ := hs projectId m.1.2 m.2 (mem_matching.mp (mem_remaining.mp (List.mem_of_mem_take hm)).1).1
  rw [finishPerson, entryOf, hproperties]
  rfl

/-- The size of a page. -/
def pageLimit (limit : Nat) : Nat := Nat.min (Nat.max limit 1) maxPersonPage

theorem list_ok (hs : Readable K s) (after : Option PersonCursor) (limit : Nat) : list K extract s projectId search after limit =
    .ok (((remaining extract s projectId search after).take (pageLimit limit)).map (shownOf K s projectId),
      if pageLimit limit < (remaining extract s projectId search after).length then
        (((remaining extract s projectId search after).take (pageLimit limit)).getLast?).map (encodeCursor K ∘ positionOf)
      else none) := by
  have hlimit : Nat.min (Nat.max (pageLimit limit + 1) 1) (maxPersonPage + 1) = pageLimit limit + 1 := by
    have : pageLimit limit ≤ maxPersonPage := Nat.min_le_right _ _
    change min (max (pageLimit limit + 1) 1) (maxPersonPage + 1) = pageLimit limit + 1
    omega
  have hentries := @listPersons_ok _ _ K extract s projectId search hs after (pageLimit limit + 1) listedDistinctIds
  have hmore : ∀ n, pageLimit limit < min (pageLimit limit + 1) n ↔ pageLimit limit < n := fun n => by omega
  rw [hlimit] at hentries
  rw [list, ← pageLimit, hentries]
  simp only
  rw [← List.map_take, List.take_take, Nat.min_eq_left (Nat.le_succ _), List.map_map, List.length_map, List.length_take, List.getLast?_map,
    Option.map_map]
  simp only [hmore]
  rfl

private theorem pageLimit_pos (limit : Nat) : 0 < pageLimit limit := by
  change 0 < min (max limit 1) maxPersonPage
  exact Nat.lt_min.mpr ⟨by omega, by decide⟩

/-- A page is all that remains, or what comes first of it, and then its cursor is issued for the last person of the page. -/
theorem list_cases (hs : Readable K s) {after : Option PersonCursor} {limit : Nat} {rows : List (PersonSummary ν)} {next : Option String}
    (h : list K extract s projectId search after limit = .ok (rows, next)) :
    next = none ∧ rows = (remaining extract s projectId search after).map (shownOf K s projectId) ∨
      ∃ front n back, remaining extract s projectId search after = front ++ [n] ++ back ∧ rows = (front ++ [n]).map (shownOf K s projectId) ∧
        next = some (encodeCursor K (positionOf n)) := by
  rw [list_ok hs, Except.ok.injEq, Prod.mk.injEq] at h
  obtain ⟨rfl, rfl⟩ := h
  generalize remaining extract s projectId search after = rest
  by_cases hmore : pageLimit limit < rest.length
  · have hne : rest.take (pageLimit limit) ≠ [] := by
      have := pageLimit_pos limit
      rw [← List.length_pos_iff, List.length_take]
      omega
    refine .inr ⟨(rest.take (pageLimit limit)).dropLast, (rest.take (pageLimit limit)).getLast hne, rest.drop (pageLimit limit), ?_, ?_, ?_⟩
    · rw [List.dropLast_append_getLast, List.take_append_drop]
    · rw [List.dropLast_append_getLast]
    · rw [if_pos hmore, List.getLast?_eq_some_getLast hne]
      rfl
  · exact .inl ⟨if_neg hmore, by rw [List.take_of_length_le (Nat.not_lt.mp hmore)]⟩

/-- The position that a cursor leads to. -/
def decoded (K : Crates ν U) (cursor : Option String) : Option PersonCursor := cursor.bind fun text => (decodeCursor K text).toOption

/-- A cursor that is issued for a position that fits, or none. -/
def Issued (K : Crates ν U) (cursor : Option String) : Prop := cursor = none ∨ ∃ position : PersonCursor, position.Fits ∧ cursor = some (encodeCursor K position)

theorem decoded_encodeCursor {position : PersonCursor} (h : position.Fits) : decoded K (some (encodeCursor K position)) = some position := by
  rw [decoded, Option.bind_some, decodeCursor_encodeCursor h]
  rfl

theorem listRoute_issued {cursor : Option String} (h : Issued K cursor) (limit : Option Nat) : listRoute K extract s projectId search cursor limit =
    list K extract s projectId search (decoded K cursor) (limit.getD defaultPersonLimit) := by
  rcases h with rfl | ⟨position, hfits, rfl⟩
  · rfl
  · rw [decoded_encodeCursor hfits, listRoute, Option.filter_some_pos (by simpa using encodeCursor_ne_empty hfits)]
    simp only
    rw [decodeCursor_encodeCursor hfits]
    rfl

theorem list_of_listRoute {cursor : Option String} {limit : Option Nat} {answer : List (PersonSummary ν) × Option String}
    (h : listRoute K extract s projectId search cursor limit = .ok answer) :
    ∃ after, list K extract s projectId search after (limit.getD defaultPersonLimit) = .ok answer := by
  unfold listRoute at h
  split at h
  · exact ⟨none, h⟩
  · obtain ⟨after, -, hlist⟩ := bind_ok.mp h
    exact ⟨after, hlist⟩

/-- The pages of the list are those of what remains after their cursors. -/
theorem nextPage_serves (hs : Readable K s) (hfits : ∀ m ∈ matching extract s projectId search, (positionOf m).Fits) (limit : Option Nat) :
    Serves (nextPage K extract s projectId search limit) (Issued K)
      (fun cursor => (remaining extract s projectId search (decoded K cursor)).map (shownOf K s projectId)) fun _ => False := by
  constructor
  · intro cursor rows hissued hpage
    rw [nextPage, listRoute_issued hissued] at hpage
    obtain ⟨⟨rows', next⟩, hlist, heq⟩ := map_ok.mp hpage
    obtain ⟨rfl, hnext⟩ := Prod.mk.inj heq
    rcases list_cases hs hlist with ⟨-, hrows⟩ | ⟨front, n, back, -, -, rfl⟩
    · exact hrows.symm
    · cases hnext
  · intro cursor rows next hissued hpage
    rw [nextPage, listRoute_issued hissued] at hpage
    obtain ⟨⟨rows', next'⟩, hlist, heq⟩ := map_ok.mp hpage
    obtain ⟨rfl, hnext⟩ := Prod.mk.inj heq
    rcases list_cases hs hlist with ⟨rfl, -⟩ | ⟨front, n, back, hrest, rfl, rfl⟩
    · cases hnext
    · obtain rfl := Option.some.inj hnext
      have hmem : n ∈ remaining extract s projectId search (decoded K cursor) := by
        rw [hrest]
        exact List.mem_append_left back (List.mem_append_right front List.mem_cons_self)
      have hn := hfits n (mem_remaining.mp hmem).1
      refine ⟨.inr ⟨positionOf n, hn, rfl⟩, by simp, [], fun _ hx => absurd hx List.not_mem_nil, ?_⟩
      rw [decoded_encodeCursor hn, remaining_append hrest, hrest, List.append_nil, List.map_append]

end answers
/-! Runs. -/
section runs
variable {ν U : Type} {K : Crates ν U} {extract : String → String → Option String} {s : Tables} {projectId : String} {search : Option String}

/-- The event is one that the log holds, and capture has cut its distinct id. -/
def Captured (K : Crates ν U) : Act ν U → Tables → Prop := Act.Sent K (fun d => d.toList.length ≤ maxDistinctIdChars) fun _ => True

/-- It has also been published, in one transaction with a file of its day, and the catalogue takes only days of ten characters. -/
def Published (K : Crates ν U) : Act ν U → Tables → Prop :=
  Act.Sent K (fun d => d.toList.length ≤ maxDistinctIdChars) fun t => t.date.text.length = 10

theorem captured_of_resolveEvent {newV7 : DateTime → U} {obj : Map ν} {batchToken : Option String} {sentAt : Option DateTime} {now : DateTime}
    {e : CapturedEvent ν U} (hlogged : Projections.Logged K e) (h : resolveEvent K newV7 obj batchToken sentAt now = .ok e) :
    Captured K (.event projectId e) s := by
  obtain ⟨v, -, htext⟩ := (resolveEvent_ok h).distinctId
  refine ⟨hlogged, ?_, trivial⟩
  change e.distinctId.toList.length ≤ maxDistinctIdChars
  rw [htext, List.length_map]
  exact List.length_take_le _ _

theorem readable_of_orderly (hs : s.Orderly K) : Readable K s := by
  intro pr p row hrow
  obtain ⟨properties, hproperties, -⟩ := hs.readable pr p row hrow
  unfold Projections.decodeProperties at hproperties
  unfold decodeObject
  cases hparse : parse K.numbers recursionBudget row.properties.toList with
  | none =>
    rw [hparse] at hproperties
    cases hproperties
  | some value =>
    rw [hparse] at hproperties
    cases value with
    | object members => exact ⟨_, rfl⟩
    | _ => cases hproperties

/-- All cursors fit, because linked ids are not the ids of people. -/
theorem captured_fits (h : System.Reached .empty (Step K) (Captured K) s) : ∀ m ∈ matching extract s projectId search, (positionOf m).Fits := by
  intro m hm
  obtain ⟨hs, hholders, hstamped⟩ := Projections.surviving h
  obtain ⟨hrow, -, -⟩ := mem_matching.mp hm
  constructor
  · obtain ⟨t, -, htext⟩ := hstamped projectId m.1.2 m.2 hrow
    exact (congrArg (fun text => text.toList.length) htext).trans_le (length_toRfc3339 t)
  · exact hholders projectId m.1.2 m.1.2 ((hs.resolved.person projectId m.1.2).mp (by rw [hrow]; rfl))

/-- Newest first, and of one date the later id first. -/
def Newer (x y : PersonSummary ν) : Prop := y.createdAt < x.createdAt ∨ y.createdAt = x.createdAt ∧ y.id < x.id

theorem newer_of_key_lt {m n : (String × String) × PersonRow} (h : personKey n < personKey m) :
    Newer (shownOf K s projectId m) (shownOf K s projectId n) := Prod.Lex.toLex_lt_toLex.mp h

/-- Under published events the texts of dates are in the order of the times. -/
theorem published_newer (h : System.Reached .empty (Step K) (Published K) s) {m n : (String × String) × PersonRow}
    (hm : m ∈ matching extract s projectId search) (hn : n ∈ matching extract s projectId search) (hlt : personKey n < personKey m) :
    ∃ t u : DateTime, m.2.createdAt = t.toRfc3339 ∧ n.2.createdAt = u.toRfc3339 ∧ (u < t ∨ u = t ∧ n.1.2 < m.1.2) := by
  obtain ⟨-, -, hstamped⟩ := Projections.surviving h
  obtain ⟨t, ht, htext⟩ := hstamped projectId m.1.2 m.2 (mem_matching.mp hm).1
  obtain ⟨u, hu, hutext⟩ := hstamped projectId n.1.2 n.2 (mem_matching.mp hn).1
  have ht : t.FourDigit := (length_dayText t).mp ht
  have hu : u.FourDigit := (length_dayText u).mp hu
  refine ⟨t, u, htext, hutext, ?_⟩
  rcases Prod.Lex.toLex_lt_toLex.mp hlt with hdate | ⟨hdate, hid⟩
  · have hdate : n.2.createdAt < m.2.createdAt := hdate
    rw [htext, hutext] at hdate
    exact .inl ((toRfc3339_lt hu ht).mp hdate)
  · have htexts : u.toRfc3339 = t.toRfc3339 := hutext.symm.trans (hdate.trans htext)
    refine .inr ⟨le_antisymm (not_lt.mp fun h => ?_) (not_lt.mp fun h => ?_), hid⟩
    · exact ((toRfc3339_lt ht hu).mpr h).ne htexts.symm
    · exact ((toRfc3339_lt hu ht).mpr h).ne htexts

/-- After any captured events and erasures, a client who follows the cursors of the persons list from its first page comes to the end and sees
every person that the search is for once, newest first, and every cursor that is issued is accepted and leads to the last person of its page. -/
theorem person_pages (h : System.Reached .empty (Step K) (Captured K) s) (limit : Option Nat) :
    (∃ pages, Visited (nextPage K extract s projectId search limit) none pages none) ∧
    (∀ pages next, Visited (nextPage K extract s projectId search limit) none pages next →
      pages.length ≤ (matching extract s projectId search).length + 1 ∧
      ∀ cursor, next = some cursor → ∃ answer, nextPage K extract s projectId search limit cursor = .ok answer) ∧
    (∀ pages, Visited (nextPage K extract s projectId search limit) none pages none →
      pages.flatten.Perm ((matching extract s projectId search).map (shownOf K s projectId)) ∧ pages.flatten.Pairwise Newer ∧
      (System.Reached .empty (Step K) (Published K) s → pages.flatten.Pairwise fun x y =>
        ∃ t u : DateTime, x.createdAt = t.toRfc3339 ∧ y.createdAt = u.toRfc3339 ∧ (u < t ∨ u = t ∧ y.id < x.id))) ∧
    ∀ cursor rows next, listRoute K extract s projectId search cursor limit = .ok (rows, some next) →
      ∃ last, rows.getLast? = some last ∧ decodeCursor K next = .ok ⟨last.createdAt, last.id⟩ := by
  have hs := readable_of_orderly (Projections.surviving h).1
  have hfits : ∀ m ∈ matching extract s projectId search, (positionOf m).Fits := captured_fits h
  have hserves := nextPage_serves hs hfits limit
  have hfirst : Issued K none := .inl rfl
  have hall : remaining extract s projectId search (decoded K none) = descending personKey (matching extract s projectId search) :=
    List.filter_eq_self.mpr fun _ _ => rfl
  have hok : ∀ cursor, Issued K cursor → ∃ answer, nextPage K extract s projectId search limit cursor = .ok answer := by
    intro cursor hissued
    rw [nextPage, listRoute_issued hissued, list_ok hs]
    exact ⟨_, rfl⟩
  refine ⟨?_, fun pages next hv => ⟨?_, fun cursor heq => hok cursor (hserves.valid hfirst hv cursor heq)⟩, fun pages hv => ?_, fun cursor rows next hroute => ?_⟩
  · obtain ⟨pages, next, hv, herror⟩ := hserves.ends hfirst
    cases next with
    | none => exact ⟨pages, hv⟩
    | some cursor =>
      obtain ⟨e, he⟩ := herror cursor rfl
      obtain ⟨answer, hanswer⟩ := hok cursor (hserves.valid hfirst hv cursor rfl)
      rw [he] at hanswer
      cases hanswer
  · refine (hserves.length_le hfirst hv).trans (Nat.succ_le_succ ?_)
    rw [hall, List.length_map, Paging.perm_descending.length_eq]
  · have hseen := hserves.lossless hfirst hv
    rw [hall, Option.elim_none, List.append_nil] at hseen
    have hfalls := Paging.pairwise_descending (@personKeys_nodup extract s projectId search)
    rw [← hseen]
    refine ⟨Paging.perm_descending.map _, List.pairwise_map.mpr (hfalls.imp newer_of_key_lt), fun hpublished => List.pairwise_map.mpr ?_⟩
    exact hfalls.imp_of_mem fun hm hn hlt => published_newer hpublished (Paging.mem_descending.mp hm) (Paging.mem_descending.mp hn) hlt
  · obtain ⟨after, hlist⟩ := list_of_listRoute hroute
    rcases list_cases hs hlist with ⟨hnext, -⟩ | ⟨front, n, back, hrest, rfl, hnext⟩
    · cases hnext
    · obtain rfl := Option.some.inj hnext
      have hmem : n ∈ remaining extract s projectId search after := by
        rw [hrest]
        exact List.mem_append_left back (List.mem_append_right front List.mem_cons_self)
      refine ⟨shownOf K s projectId n, ?_, decodeCursor_encodeCursor (hfits n (mem_remaining.mp hmem).1)⟩
      rw [List.map_append, List.map_singleton, List.getLast?_concat]

/-- After a login that links an anonymous id the pages show the one person that is left. -/
theorem linked_person_pages : ∃ pages, Visited (nextPage Crates.small (fun _ _ => none) Projections.linkedTables "p" none none) none pages none ∧
    pages.flatten.map PersonSummary.id = ["u"] := by
  have hsent : Captured Crates.small (.event "p" Projections.linkEvent) Tables.empty := ⟨Projections.linkEvent_logged, by decide, trivial⟩
  have hstep : Step Crates.small (.event "p" Projections.linkEvent) .empty Projections.linkedTables := Projections.linkEvent_applied
  obtain ⟨⟨pages, hv⟩, -, hended, -⟩ := person_pages (.step .start hsent hstep) none
  have hids : ((matching (fun _ _ => none) Projections.linkedTables "p" none).map (shownOf Crates.small Projections.linkedTables "p")).map
      PersonSummary.id = ["u"] := by decide +kernel
  refine ⟨pages, hv, List.perm_singleton.mp ?_⟩
  rw [← hids]
  exact (hended pages hv).1.map PersonSummary.id

end runs
end Hoglet.Persons
