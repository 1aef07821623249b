import Hoglet.Explore.EventPages

/-! A client that follows the event feed from any bound, and the one bound at which it misses events. -/
namespace Hoglet.Explore
open Capture
open Query (Date dateNaive dayUs fromDatetime toDatetime)
open Paging (Visited Serves)

/-- What an RFC 3339 text can say: a time of the years 0 to 9999, with an offset. -/
def Sent (time : DateTime) : Prop := ∃ written : DateTime, written.FourDigit ∧ written.ns - nsPerDay < time.ns ∧ time.ns < written.ns + nsPerDay

/-- The feed as pages: what it answers a bound with. -/
def nextPage (source : EventSource) (projectId : String) (query : FeedQuery) (now : DateTime) (before : Option DateTime) :
    Except FeedError (List RawEvent × Option (Option DateTime)) :=
  (feed source projectId { query with before } now).map fun answer => (answer.1, answer.2.map some)

/-- The events that a query asks for, newest first. -/
def matching (source : EventSource) (projectId : String) (query : FeedQuery) : List RawEvent := (source.ordered projectId).filter query.asks

/-- Strictly earlier than a bound. Without a bound that is before the end of tomorrow. -/
def Earlier (now : DateTime) : Option DateTime → RawEvent → Prop
  | some before, row => row.micros * 1000 < before.ns
  | none, row => row.day < (dateNaive now).days + 2

/-- A time that is strictly earlier than a bound. -/
def Under (now time : DateTime) : Option DateTime → Prop
  | some before => time.ns < before.ns
  | none => time.ns < ((dateNaive now).days + 2) * nsPerDay

/-- What the feed promises a client who follows its bounds from the query's own until there is none. -/
structure PagesRight (source : EventSource) (projectId : String) (query : FeedQuery) (now : DateTime) : Prop where
  ends : ∃ pages next, Visited (nextPage source projectId query now) query.before pages next ∧
    ∀ bound, next = some bound → ∃ e, nextPage source projectId query now bound = .error e
  finite : ∀ pages next, Visited (nextPage source projectId query now) query.before pages next →
    pages.length ≤ (matching source projectId query).length + 1
  falls : ∀ pages next, Visited (nextPage source projectId query now) query.before pages next →
    pages.flatten.Pairwise fun a b => eventKey b < eventKey a
  asked : ∀ pages next, Visited (nextPage source projectId query now) query.before pages next →
    ∀ row ∈ pages.flatten, row ∈ matching source projectId query ∧ Earlier now query.before row
  covers : ∀ pages, Visited (nextPage source projectId query now) query.before pages none →
    ∀ row ∈ matching source projectId query, Earlier now query.before row →
      row ∈ pages.flatten ∨ Beyond query.pageLimit (matching source projectId query) row
  bounds : ∀ pages before rows time, Visited (nextPage source projectId query now) query.before pages (some before) →
    nextPage source projectId query now before = .ok (rows, some (some time)) → Under now time before

section feed
variable {source : EventSource} {projectId : String} {query : FeedQuery} {now : DateTime} {before : Option DateTime}

theorem years_of_days {days : Int} (h : -719528 ≤ days ∧ days ≤ 2932896) : 0 ≤ (civil days).year ∧ (civil days).year ≤ 9999 := by
  obtain ⟨hfirst, hlast⟩ := h
  have hstart : (civil (-719528)).year = 0 := by decide
  have hend : (civil 2932896).year = 9999 := by decide
  constructor
  · rcases hfirst.eq_or_lt with rfl | hlt
    · exact hstart.ge
    · have hyear := (civil_lt (-719528) days).mp hlt
      rw [hstart] at hyear
      omega
  · rcases hlast.eq_or_lt with rfl | hlt
    · exact hend.le
    · have hyear := (civil_lt days 2932896).mp hlt
      rw [hend] at hyear
      omega

theorem fourDigit_iff {time : DateTime} : time.FourDigit ↔ -719528 ≤ (dateNaive time).days ∧ (dateNaive time).days ≤ 2932896 :=
  ⟨days_of_years, years_of_days⟩

/-- A page's windows start above every event below its bound, and reach back far enough for the rest of them. -/
theorem windows_start {windows : Windows} (hbefore : ∀ time, before = some time → Sent time) (hnow : now.FourDigit)
    (h : Windows.new before now = .ok windows) : 0 ≤ windows.span ∧ windows.issued = 0 ∧ windows.span ≤ 2 ∧
      windows.hi.days - windows.span * (2 ^ maxWindows - 1) ≤ -719528 ∧ (∀ row, below now before row = true → row.day < windows.hi.days) ∧
      (before = none → windows.hi.days = (dateNaive now).days + 2) := by
  cases before with
  | none =>
    cases h
    have hdays := fourDigit_iff.mp hnow
    have hhi : ((Date.ofDays ((dateNaive now).days + 2)).getD (dateNaive now)).days = (dateNaive now).days + 2 := by
      rw [Date.ofDays, dif_pos (by omega), Option.getD_some]
    refine ⟨by dsimp only; omega, rfl, le_rfl, ?_, fun row hrow => ?_, fun _ => hhi⟩
    · dsimp only
      rw [hhi, maxWindows]
      omega
    · dsimp only
      rw [hhi]
      exact of_decide_eq_true hrow
  | some time =>
    obtain ⟨written, hwritten, -, hupper⟩ := hbefore time rfl
    have hdays := (fourDigit_iff.mp hwritten).2
    obtain ⟨last, hlast, hwindows⟩ := bind_ok.mp h
    cases hwindows
    have hlastNs : last.ns = time.ns - oneMicro := by
      unfold minus at hlast
      split at hlast
      · rename_i found hfound
        cases hlast
        exact ofNs_eq_some.mp hfound
      · cases hlast
    have hhi : ((dateNaive last).succ.getD (dateNaive last)).days = (time.ns - 1000) / nsPerDay + 1 := by
      have hlastDays : (dateNaive last).days = (time.ns - 1000) / nsPerDay := congrArg (· / nsPerDay) hlastNs
      have hfits : -96465292 ≤ (dateNaive last).days + 1 ∧ (dateNaive last).days + 1 ≤ 95026236 := by
        have hmin := (dateNaive last).min_le
        rw [hlastDays] at hmin ⊢
        change written.ns / nsPerDay ≤ 2932896 at hdays
        simp only [nsPerDay] at *
        omega
      rw [Date.succ, Date.ofDays, dif_pos hfits, Option.getD_some, ← hlastDays]
    refine ⟨by dsimp only; omega, rfl, by dsimp only; omega, ?_, fun row hrow => ?_, fun hnone => by cases hnone⟩
    · dsimp only
      rw [hhi, maxWindows]
      change written.ns / nsPerDay ≤ 2932896 at hdays
      simp only [nsPerDay] at *
      omega
    · have hmicros : row.micros < time.ns / 1000 := of_decide_eq_true hrow
      dsimp only
      rw [hhi]
      change row.micros / 86400000000 < _
      simp only [nsPerDay]
      omega

theorem asks_empty (h : query.distinctIds.any List.isEmpty = true) (row : RawEvent) : query.asks row = false := by
  obtain ⟨ids, hids, hempty⟩ := (Option.any_eq_true _ _).mp h
  rw [FeedQuery.asks, hids, List.isEmpty_iff.mp hempty]
  simp

/-- A page is cut from what is left below the query's bound. -/
theorem feed_ok {rows : List RawEvent} {next : Option DateTime} (hbefore : ∀ time, query.before = some time → Sent time) (hnow : now.FourDigit)
    (h : feed source projectId query now = .ok (rows, next)) :
    cutPage ((remaining source projectId query now query.before).take (query.pageLimit + 1)) query.pageLimit = (rows, next) := by
  unfold feed at h
  split at h
  · rename_i hempty
    cases h
    have hnone : remaining source projectId query now query.before = [] :=
      List.filter_eq_nil_iff.mpr fun row _ => by simp [asks_empty hempty]
    rw [hnone, List.take_nil, cutPage]
    exact dif_neg (Nat.not_lt_zero _)
  · split at h
    · cases h
    rename_i windows hwindows
    obtain ⟨collected, hcollected, hcut⟩ := map_ok.mp h
    obtain ⟨hspan, hissued, -, hreach, hbelow, hnone⟩ := windows_start hbefore hnow hwindows
    have hfirst : (remaining source projectId query now query.before).filter (fun row => windows.hi.days ≤ row.day) = [] :=
      List.filter_eq_nil_iff.mpr fun row hrow => by simpa using hbelow row (mem_remaining.mp hrow).2.2
    rw [← hcut, collect_eq (maxWindows + 1) windows [] (fun row hrow => ?_) hfirst.symm (Nat.zero_le _) hspan (by omega) (by omega)
      (fun row hrow => ?_) hcollected]
    · cases hquery : query.before with
      | none =>
        have hrow' : row.day < (dateNaive now).days + 2 := hnone hquery ▸ hrow
        simp [FeedQuery.keeps, hquery, below, hrow']
      | some time => simp [FeedQuery.keeps, hquery, below, Bool.and_comm]
    · rw [hissued, Nat.sub_zero]
      exact hreach.trans (day_bounds (mem_remaining.mp hrow).1).1

/-! The rest below a bound of the feed. -/

theorem below_mono {row other : RawEvent} (h : row.micros ≤ other.micros) (hother : below now before other = true) :
    below now before row = true := by
  cases before with
  | none =>
    have hday : row.day ≤ other.day := Int.ediv_le_ediv (by decide) h
    exact decide_eq_true (hday.trans_lt (of_decide_eq_true hother))
  | some time => exact decide_eq_true (h.trans_lt (of_decide_eq_true hother))

/-- What is below an earlier bound as well. -/
theorem remaining_filter {bound : Int} (h : ∃ row ∈ remaining source projectId query now before, bound ≤ row.micros) :
    (remaining source projectId query now before).filter (fun row => row.micros < bound) =
      (matching source projectId query).filter fun row => row.micros < bound := by
  obtain ⟨other, hother, hle⟩ := h
  rw [remaining, matching, List.filter_filter, List.filter_filter]
  refine List.filter_congr fun row _ => ?_
  by_cases hlt : row.micros < bound
  · rw [below_mono (hlt.le.trans hle) (mem_remaining.mp hother).2.2, Bool.and_true]
  · simp [hlt]

/-- The events at the microsecond of one of them. -/
theorem remaining_group {row : RawEvent} (h : row ∈ remaining source projectId query now before) :
    (remaining source projectId query now before).filter (fun other => other.micros = row.micros) =
      (matching source projectId query).filter fun other => other.micros = row.micros := by
  rw [remaining, matching, List.filter_filter, List.filter_filter]
  refine List.filter_congr fun other _ => ?_
  by_cases heq : other.micros = row.micros
  · rw [below_mono heq.le (mem_remaining.mp h).2.2, Bool.and_true]
  · simp [heq]

theorem remaining_some {time : DateTime} : remaining source projectId query now (some time) =
    (matching source projectId query).filter fun row => row.micros < fromDatetime time := by
  rw [remaining, matching, List.filter_filter]
  exact List.filter_congr fun row _ => Bool.and_comm _ _

/-- A bound between two stored times. -/
theorem toDatetime_ns {low high : RawEvent} {bound : Int} (hlow : low ∈ remaining source projectId query now before)
    (hhigh : high ∈ remaining source projectId query now before) (hle : low.micros ≤ bound) (hle' : bound ≤ high.micros) :
    (toDatetime bound).ns = bound * 1000 ∧ Sent (toDatetime bound) := by
  have hfirst := (day_bounds (mem_remaining.mp hlow).1).1
  have hlast := (day_bounds (mem_remaining.mp hhigh).1).2
  change -719528 ≤ low.micros / 86400000000 at hfirst
  change high.micros / 86400000000 ≤ 2932896 at hlast
  obtain ⟨time, htime⟩ := exists_ofNs (show minNs ≤ bound * 1000 by simp only [minNs]; omega) (by simp only [maxNs]; omega)
  have hns : (toDatetime bound).ns = bound * 1000 := by
    rw [toDatetime, htime, Option.getD_some, ofNs_eq_some.mp htime]
  refine ⟨hns, toDatetime bound, fourDigit_iff.mpr ?_, by simp only [nsPerDay]; omega, by simp only [nsPerDay]; omega⟩
  change -719528 ≤ (toDatetime bound).ns / nsPerDay ∧ (toDatetime bound).ns / nsPerDay ≤ 2932896
  rw [hns]
  simp only [nsPerDay]
  omega

theorem pageLimit_pos (query : FeedQuery) : 0 < query.pageLimit := by
  rw [FeedQuery.pageLimit]
  exact lt_min (lt_of_lt_of_le Nat.one_pos (le_max_right _ _)) (by decide)

theorem nextPage_ok {rows : List RawEvent} {next : Option (Option DateTime)} (hvalid : ∀ time, before = some time → Sent time) (hnow : now.FourDigit)
    (h : nextPage source projectId query now before = .ok (rows, next)) :
    (next = none → remaining source projectId query now before = rows) ∧ ∀ after, next = some after → ∃ bound, after = some (toDatetime bound) ∧
      CutAt query.pageLimit (remaining source projectId query now before) rows bound := by
  obtain ⟨⟨page, time⟩, hfeed, hanswer⟩ := map_ok.mp h
  cases hanswer
  have hcut := @feed_ok source projectId { query with before } now page time hvalid hnow hfeed
  obtain ⟨hlast, hmore⟩ := cutPage_cut (remaining_falls before) (pageLimit_pos query) hcut
  refine ⟨fun hnone => hlast (Option.map_eq_none_iff.mp hnone), fun after hafter => ?_⟩
  obtain ⟨next, hnext, rfl⟩ := Option.map_eq_some_iff.mp hafter
  obtain ⟨bound, rfl, hbound⟩ := hmore next hnext
  exact ⟨bound, rfl, hbound⟩

/-- The feed's pages are cut one after the other from the events that the query asks for. -/
theorem feed_serves (source : EventSource) (projectId : String) (query : FeedQuery) (hnow : now.FourDigit) :
    Serves (nextPage source projectId query now) (fun before => ∀ time, before = some time → Sent time) (remaining source projectId query now)
      (Beyond query.pageLimit (matching source projectId query)) := by
  refine ⟨fun before rows hvalid hpage => (nextPage_ok hvalid hnow hpage).1 rfl, fun before rows next hvalid hpage => ?_⟩
  obtain ⟨bound, rfl, hne, ⟨high, hhigh, hle'⟩, ⟨low, hlow, hle⟩, lost, hlost, hrest⟩ := (nextPage_ok hvalid hnow hpage).2 next rfl
  obtain ⟨hns, hsent⟩ := toDatetime_ns hlow hhigh hle hle'
  have hbound : fromDatetime (toDatetime bound) = bound := by
    rw [fromDatetime, hns]
    exact Int.mul_ediv_cancel _ (by decide)
  refine ⟨fun time htime => Option.some.inj htime ▸ hsent, hne, lost, fun row hrow => ?_, ?_⟩
  · have hin : row ∈ remaining source projectId query now before := by
      rw [hrest]
      exact List.mem_append_left _ (List.mem_append_right _ hrow)
    obtain ⟨hmore, hnot⟩ := hlost row hrow
    rw [remaining_group hin] at hmore hnot
    exact ⟨hmore, hnot⟩
  · rw [remaining_some, hbound, ← remaining_filter ⟨high, hhigh, hle'⟩]
    exact hrest

/-! What the pages have whatever the bound is, and what they miss. -/

theorem earlier_of_below {row : RawEvent} (h : below now before row = true) : Earlier now before row := by
  cases before with
  | none =>
    have hday : row.day < (dateNaive now).days + 2 := of_decide_eq_true h
    exact hday
  | some time =>
    have hlt : row.micros < time.ns / 1000 := of_decide_eq_true h
    change row.micros * 1000 < time.ns
    omega

theorem below_of_earlier {row : RawEvent} (h : Earlier now before row)
    (hwhole : ∀ time, before = some time → time.ns % 1000 = 0 ∨ row.micros ≠ fromDatetime time) : below now before row = true := by
  cases before with
  | none =>
    have hday : row.day < (dateNaive now).days + 2 := h
    exact decide_eq_true hday
  | some time =>
    have hlt : row.micros * 1000 < time.ns := h
    have htime := hwhole time rfl
    refine decide_eq_true ?_
    rw [fromDatetime] at htime ⊢
    omega

/-- The next bound is earlier than the page's own. -/
theorem next_under {rows : List RawEvent} {time : DateTime} (hvalid : ∀ time, before = some time → Sent time) (hnow : now.FourDigit)
    (h : nextPage source projectId query now before = .ok (rows, some (some time))) : Under now time before := by
  obtain ⟨bound, hbound, -, ⟨high, hhigh, hle'⟩, ⟨low, hlow, hle⟩, -⟩ := (nextPage_ok hvalid hnow h).2 _ rfl
  cases hbound
  have hns := (toDatetime_ns hlow hhigh hle hle').1
  have hearlier := earlier_of_below (mem_remaining.mp hhigh).2.2
  cases before with
  | none =>
    have hday : high.micros / 86400000000 < (dateNaive now).days + 2 := hearlier
    change (toDatetime bound).ns < ((dateNaive now).days + 2) * nsPerDay
    rw [hns]
    simp only [nsPerDay]
    omega
  | some before =>
    have hmicros : high.micros * 1000 < before.ns := hearlier
    change (toDatetime bound).ns < before.ns
    omega

theorem mem_matching {row : RawEvent} : row ∈ matching source projectId query ↔ row ∈ source.ordered projectId ∧ query.asks row = true :=
  List.mem_filter

theorem right_of_whole (hbefore : ∀ time, query.before = some time → Sent time) (hnow : now.FourDigit)
    (hwhole : ∀ time, query.before = some time → time.ns % 1000 = 0 ∨ ∀ row ∈ matching source projectId query, row.micros ≠ fromDatetime time) :
    PagesRight source projectId query now := by
  have hserves := feed_serves source projectId query hnow
  have hlength : (remaining source projectId query now query.before).length ≤ (matching source projectId query).length := by
    have hfilter : remaining source projectId query now query.before = (matching source projectId query).filter (below now query.before) := by
      rw [remaining, matching, List.filter_filter]
      exact List.filter_congr fun row _ => Bool.and_comm _ _
    rw [hfilter]
    exact List.length_filter_le _ _
  refine ⟨hserves.ends hbefore, fun pages next hv => ?_, fun pages next hv => (remaining_falls query.before).sublist (hserves.sublist hbefore hv),
    fun pages next hv row hrow => ?_, fun pages hv row hrow hearlier => ?_, fun pages before rows time hv hpage => ?_⟩
  · exact (hserves.length_le hbefore hv).trans (Nat.succ_le_succ hlength)
  · obtain ⟨hordered, hasks, hbelow⟩ := mem_remaining.mp ((hserves.sublist hbefore hv).subset hrow)
    exact ⟨mem_matching.mpr ⟨hordered, hasks⟩, earlier_of_below hbelow⟩
  · obtain ⟨hordered, hasks⟩ := mem_matching.mp hrow
    have hbelow := below_of_earlier hearlier fun time htime => (hwhole time htime).imp_right fun hother => hother row hrow
    exact hserves.covers hbefore hv (mem_remaining.mpr ⟨hordered, hasks, hbelow⟩)
  · exact next_under (hserves.valid hbefore hv before rfl) hnow hpage

/-- The events at the microsecond that a bound cuts are missed, the first of them too. -/
theorem whole_of_right (hbefore : ∀ time, query.before = some time → Sent time) (hnow : now.FourDigit) {pages : List (List RawEvent)}
    (hended : Visited (nextPage source projectId query now) query.before pages none) (h : PagesRight source projectId query now) {time : DateTime}
    (htime : query.before = some time) (hcut : time.ns % 1000 ≠ 0) : ∀ row ∈ matching source projectId query, row.micros ≠ fromDatetime time := by
  intro row hrow heq
  have hgroup : row ∈ (matching source projectId query).filter fun other => other.micros = fromDatetime time :=
    List.mem_filter.mpr ⟨hrow, decide_eq_true heq⟩
  obtain ⟨first, others, hfirst⟩ := List.exists_cons_of_ne_nil (List.ne_nil_of_mem hgroup)
  obtain ⟨hmatching, hmicros⟩ := List.mem_filter.mp (hfirst ▸ List.mem_cons_self : first ∈ (matching source projectId query).filter fun other =>
    other.micros = fromDatetime time)
  have hmicros : first.micros = time.ns / 1000 := of_decide_eq_true hmicros
  have hearlier : Earlier now query.before first := by
    rw [htime]
    change first.micros * 1000 < time.ns
    omega
  rcases h.covers pages hended first hmatching hearlier with hseen | ⟨-, hnot⟩
  · have hbelow := (mem_remaining.mp (((feed_serves source projectId query hnow).sublist hbefore hended).subset hseen)).2.2
    rw [htime] at hbelow
    have hlt : first.micros < time.ns / 1000 := of_decide_eq_true hbelow
    omega
  · obtain ⟨limit, hlimit⟩ := Nat.exists_eq_add_of_lt (pageLimit_pos query)
    rw [hmicros, ← fromDatetime, hfirst, hlimit, Nat.zero_add, List.take_succ_cons] at hnot
    exact hnot List.mem_cons_self

end feed

section visit

/-- One stored event, at noon. -/
def visitEvent : RawEvent := ⟨"01", "$pageview", "u", 1773144000000000, "\x7b\x7d"⟩

def visitSource : EventSource where
  stored _ := [⟨"p/2026-03-10/1.parquet", ⟨20522, by decide, by decide⟩, [visitEvent]⟩]
  partitioned := by simp [visitEvent, dayUs, Query.hourUs]
  dayText := by
    simp only [List.mem_singleton, forall_eq]
    exact fun _ => by decide
  distinct _ := by decide

def noonQuery (ns : Int) (h : 0 ≤ ns ∧ ns < 1000000 := by decide) : FeedQuery where
  event := none
  distinctIds := none
  before := some ⟨1773144000000000000 + ns, by simp only [minNs]; omega, by simp only [maxNs]; omega⟩
  limit := 100
  filters _ := true

def onePm : DateTime := ⟨1773147600000000000, by decide, by decide⟩

theorem onePm_fourDigit : onePm.FourDigit := ⟨by decide, by decide⟩

theorem noonQuery_sent (ns : Int) (h : 0 ≤ ns ∧ ns < 1000000) : ∀ time, (noonQuery ns h).before = some time → Sent time := by
  intro time htime
  cases htime
  refine ⟨onePm, onePm_fourDigit, ?_, ?_⟩
  all_goals
    simp only [onePm, nsPerDay]
    omega

/-- Whether the feed answers a query's own bound with these rows and nothing more to come. -/
def answers (query : FeedQuery) (rows : List RawEvent) : Bool :=
  match nextPage visitSource "p" query onePm query.before with
  | .ok (found, none) => found = rows
  | _ => false

theorem visited_of_answers {query : FeedQuery} {rows : List RawEvent} (h : answers query rows = true) :
    Visited (nextPage visitSource "p" query onePm) query.before [rows] none := by
  unfold answers at h
  split at h
  · rename_i found hpage
    rw [← of_decide_eq_true h]
    exact Visited.more .start hpage
  · cases h

theorem visit_matching (ns : Int) (h : 0 ≤ ns ∧ ns < 1000000) : visitEvent ∈ matching visitSource "p" (noonQuery ns h) :=
  mem_matching.mpr ⟨Paging.mem_descending.mpr (by simp [visitSource]), rfl⟩

end visit
end Hoglet.Explore
