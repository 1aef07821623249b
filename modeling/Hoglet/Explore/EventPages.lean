import Hoglet.Capture.TextOrder
import Hoglet.Explore.Events
import Hoglet.Explore.Tiled

/-! The pages of the event feed that a client sees who follows their bounds. -/
namespace Hoglet.Explore
open Capture
open Query (Date dateNaive dayUs fromDatetime toDatetime)
open Paging (descending)

/-! The rows of day windows. -/
section windows
variable {source : EventSource} {projectId : String} {query : FeedQuery} {limit : Nat} {row : RawEvent}

/-- A project's events, newest first. -/
def EventSource.ordered (source : EventSource) (projectId : String) : List RawEvent :=
  descending eventKey ((source.stored projectId).flatMap EventFile.rows)

def RawEvent.day (row : RawEvent) : Int := row.micros / dayUs

theorem eventKeys_nodup (source : EventSource) (projectId : String) :
    (((source.stored projectId).flatMap EventFile.rows).map eventKey).Nodup := by
  refine List.Nodup.of_map (fun key => (ofLex key).2) ?_
  rw [List.map_map]
  exact source.distinct projectId

theorem ordered_falls (source : EventSource) (projectId : String) :
    (source.ordered projectId).Pairwise fun a b => eventKey b < eventKey a := Paging.pairwise_descending (eventKeys_nodup source projectId)

theorem micros_le {a b : RawEvent} (h : eventKey b < eventKey a) : b.micros ≤ a.micros := by
  rcases Prod.Lex.toLex_lt_toLex.mp h with hlt | ⟨heq, -⟩
  · exact hlt.le
  · exact heq.le

theorem mem_ordered (h : row ∈ source.ordered projectId) : ∃ file ∈ source.stored projectId, row.day = file.day.days := by
  obtain ⟨file, hfile, hrow⟩ := List.mem_flatMap.mp (Paging.mem_descending.mp h)
  exact ⟨file, hfile, source.partitioned projectId file hfile row hrow⟩

theorem days_of_years {days : Int} (h : 0 ≤ (civil days).year ∧ (civil days).year ≤ 9999) : -719528 ≤ days ∧ days ≤ 2932896 := by
  obtain ⟨hfirst, hlast⟩ := h
  have hbefore : (civil (-719529)).year = -1 := by decide
  have hafter : (civil 2932897).year = 10000 := by decide
  have hlt := (civil_lt (-719529) days).mpr (.inl (by rw [hbefore]; omega))
  have hlt' := (civil_lt days 2932897).mpr (.inl (by rw [hafter]; omega))
  omega

/-- The catalogue's days are those of the years 0 to 9999. -/
theorem day_bounds (h : row ∈ source.ordered projectId) : -719528 ≤ row.day ∧ row.day ≤ 2932896 := by
  obtain ⟨file, hfile, hday⟩ := mem_ordered h
  have hdate : (dayStart file.day).date = civil file.day.days := congrArg civil (Int.mul_ediv_cancel _ (by decide))
  have htext := source.dayText projectId file hfile
  rw [← hdate, length_dayText, hdate] at htext
  rw [hday]
  exact days_of_years htext

theorem window_rows (lo hi : Date) : (source.files projectId lo hi).flatMap EventFile.rows =
    ((source.stored projectId).flatMap EventFile.rows).filter fun row => lo.days ≤ row.day && row.day < hi.days := by
  have hpartitioned := source.partitioned projectId
  unfold EventSource.files
  generalize source.stored projectId = files at hpartitioned ⊢
  induction files with
  | nil => rfl
  | cons file files ih =>
    have hrows : file.rows.filter (fun row => lo.days ≤ row.day && row.day < hi.days) =
        if lo.days ≤ file.day.days && file.day.days < hi.days then file.rows else [] := by
      have hday : ∀ row ∈ file.rows, row.day = file.day.days := hpartitioned file List.mem_cons_self
      split
      · rename_i hwithin
        exact List.filter_eq_self.mpr fun row hrow => by rw [hday row hrow, hwithin]
      · rename_i hwithin
        exact List.filter_eq_nil_iff.mpr fun row hrow => by rwa [hday row hrow]
    rw [List.flatMap_cons, List.filter_append, ← ih fun file hfile => hpartitioned file (List.mem_cons_of_mem _ hfile), hrows, List.filter_cons]
    split
    · rw [List.flatMap_cons]
    · rw [List.nil_append]

theorem readWindow_eq (lo hi : Date) (wanted : Nat) : readWindow (source.files projectId lo hi) query wanted =
    ((source.ordered projectId).filter fun row => query.keeps row && (lo.days ≤ row.day && row.day < hi.days)).take wanted := by
  rw [readWindow, window_rows, List.filter_filter, Paging.descending_filter (eventKeys_nodup source projectId)]
  rfl

end windows

/-! The loop over the windows. -/
section loop
variable {source : EventSource} {projectId : String} {query : FeedQuery} {now : DateTime} {limit : Nat}

/-- Below a bound, to the microsecond. Without a bound that is below the end of tomorrow. -/
def below (now : DateTime) : Option DateTime → RawEvent → Bool
  | some before, row => row.micros < fromDatetime before
  | none, row => row.day < (dateNaive now).days + 2

/-- The events that a query asks for, below a bound. -/
def remaining (source : EventSource) (projectId : String) (query : FeedQuery) (now : DateTime) (before : Option DateTime) : List RawEvent :=
  (source.ordered projectId).filter fun row => query.asks row && below now before row

theorem remaining_falls (before : Option DateTime) : (remaining source projectId query now before).Pairwise fun a b => eventKey b < eventKey a :=
  (ordered_falls source projectId).filter _

theorem mem_remaining {before : Option DateTime} {row : RawEvent} : row ∈ remaining source projectId query now before ↔
    row ∈ source.ordered projectId ∧ query.asks row = true ∧ below now before row = true := by
  rw [remaining, List.mem_filter, Bool.and_eq_true]

theorem parquetSource_ok {files : List EventFile} {read : Option (List EventFile)} (h : parquetSource files = .ok read) :
    read = none ∧ files = [] ∨ read = some files := by
  unfold parquetSource at h
  split at h
  · rename_i hempty
    cases h
    exact .inl ⟨rfl, List.isEmpty_iff.mp hempty⟩
  split at h
  · cases h
  split at h
  · cases h
  · cases h
    exact .inr rfl

theorem read_rows {files : List EventFile} {read : Option (List EventFile)} (h : parquetSource files = .ok read) (query : FeedQuery) (wanted : Nat) :
    (read.map fun files => readWindow files query wanted).getD [] = readWindow files query wanted := by
  rcases parquetSource_ok h with ⟨rfl, rfl⟩ | rfl
  · simp [readWindow, descending]
  · rfl

/-- A window ends where the one before it began. -/
theorem next_some {windows windows' : Windows} {lo hi : Date} (h : windows.next = some ((lo, hi), windows')) (hspan : 0 ≤ windows.span) :
    hi = windows.hi ∧ windows' = ⟨lo, windows.span * 2, windows.issued + 1⟩ ∧ windows.issued ≠ maxWindows ∧ lo.days ≤ hi.days ∧
      (lo.days ≤ windows.hi.days - windows.span ∨ lo = Date.min) := by
  unfold Windows.next at h
  split at h
  · cases h
  rename_i hmore
  cases h
  refine ⟨rfl, rfl, fun heq => hmore (.inl heq), ?_⟩
  rw [Date.ofDays]
  split
  · exact ⟨by change windows.hi.days - windows.span ≤ _; omega, .inl le_rfl⟩
  · exact ⟨windows.hi.min_le, .inr rfl⟩

/-- The rows of a window are those of the rest that lie in it. -/
theorem readWindow_remaining {lo hi : Date} (wanted : Nat)
    (hkeeps : ∀ row, row.day < hi.days → query.keeps row = (query.asks row && below now query.before row)) :
    readWindow (source.files projectId lo hi) query wanted =
      ((remaining source projectId query now query.before).filter fun row => lo.days ≤ row.day && row.day < hi.days).take wanted := by
  rw [readWindow_eq, remaining, List.filter_filter]
  refine congrArg (List.take wanted) (List.filter_congr fun row _ => ?_)
  by_cases hday : row.day < hi.days
  · rw [hkeeps row hday, Bool.and_comm]
  · simp [hday]

theorem falls_days {rows : List RawEvent} (h : rows.Pairwise fun a b => eventKey b < eventKey a) (day : Int) :
    rows.Pairwise fun a b => decide (day ≤ b.day) = true → decide (day ≤ a.day) = true := by
  refine h.imp fun hlt => ?_
  simp only [decide_eq_true_eq]
  exact fun hday => hday.trans (Int.ediv_le_ediv (by decide) (micros_le hlt))

/-- The rows from a day on are those from a later day on and those between. -/
theorem filter_days {rows : List RawEvent} (h : rows.Pairwise fun a b => eventKey b < eventKey a) {lo hi : Int} (hle : lo ≤ hi) :
    rows.filter (fun row => lo ≤ row.day) = rows.filter (fun row => hi ≤ row.day) ++ rows.filter (fun row => lo ≤ row.day && row.day < hi) := by
  rw [Paging.filter_append_filter (falls_days (h.filter _) hi), List.filter_filter, List.filter_filter]
  congr 1
  · refine List.filter_congr fun row _ => ?_
    rw [Bool.eq_iff_iff]
    simp only [Bool.and_eq_true, decide_eq_true_eq]
    omega
  · refine List.filter_congr fun row _ => ?_
    rw [Bool.eq_iff_iff]
    simp only [Bool.and_eq_true, Bool.not_eq_true', decide_eq_true_eq, decide_eq_false_iff_not]
    omega

/-- The windows that are left reach back to every row: each is twice as long as the one before. -/
def Reaches (windows : Windows) (rows : List RawEvent) : Prop :=
  ∀ row ∈ rows, windows.hi.days - windows.span * (2 ^ (maxWindows - windows.issued) - 1) ≤ row.day

theorem first_le {row : RawEvent} (h : row ∈ source.ordered projectId) : Date.min.days ≤ row.day := by
  have hbounds := day_bounds h
  change -96465292 ≤ row.day
  omega

/-- When no window is left, no older row is. -/
theorem Reaches.over {windows : Windows} {rows : List RawEvent} (h : Reaches windows rows) (hmin : ∀ row ∈ rows, Date.min.days ≤ row.day)
    (hnext : windows.next = none) : ∀ row ∈ rows, windows.hi.days ≤ row.day := by
  intro row hrow
  unfold Windows.next at hnext
  split at hnext
  · rename_i hstop
    rcases hstop with hlast | hfirst
    · have hold := h row hrow
      rwa [hlast, Nat.sub_self, pow_zero, Int.sub_self, mul_zero, Int.sub_zero] at hold
    · rw [hfirst]
      exact hmin row hrow
  · cases hnext

theorem Reaches.next {windows windows' : Windows} {lo hi : Date} {rows : List RawEvent} (h : Reaches windows rows)
    (hmin : ∀ row ∈ rows, Date.min.days ≤ row.day) (hnext : windows.next = some ((lo, hi), windows')) (hspan : 0 ≤ windows.span)
    (hissued : windows.issued ≤ maxWindows) : Reaches windows' rows := by
  obtain ⟨-, rfl, hnot, -, hlo⟩ := next_some hnext hspan
  intro row hrow
  have hpow : (2 : Int) ^ (maxWindows - windows.issued) = 2 * 2 ^ (maxWindows - (windows.issued + 1)) := by
    rw [← pow_succ']
    congr 1
    omega
  have hold := h row hrow
  rw [hpow] at hold
  have hpos : (1 : Int) ≤ 2 ^ (maxWindows - (windows.issued + 1)) := one_le_pow₀ (by decide)
  dsimp only
  rcases hlo with hlo | hlo
  · nlinarith
  · have hstart := hmin row hrow
    rw [← hlo] at hstart
    nlinarith

/-- Without older files there is no older row. -/
theorem day_of_no_files {lo : Date} (hempty : (source.files projectId Date.min lo).isEmpty = true) {row : RawEvent}
    (hrow : row ∈ source.ordered projectId) : lo.days ≤ row.day := by
  by_contra hday
  obtain ⟨file, hfile, hrowday⟩ := mem_ordered hrow
  have hold : file ∈ source.files projectId Date.min lo := by
    refine List.mem_filter.mpr ⟨hfile, ?_⟩
    rw [Bool.and_eq_true, decide_eq_true_eq, decide_eq_true_eq, ← hrowday]
    exact ⟨first_le hrow, not_le.mp hday⟩
  rw [List.isEmpty_iff.mp hempty] at hold
  cases hold

theorem filter_from_all {rows : List RawEvent} {day : Int} (h : ∀ row ∈ rows, day ≤ row.day) : rows.filter (fun row => day ≤ row.day) = rows :=
  List.filter_eq_self.mpr fun row hrow => decide_eq_true (h row hrow)

/-- The loop finds the first rows of the rest, one more than the page, when its windows reach back far enough. -/
theorem collect_eq (fuel : Nat) (windows : Windows) (collected : List RawEvent) {result : List RawEvent}
    (hkeeps : ∀ row, row.day < windows.hi.days → query.keeps row = (query.asks row && below now query.before row))
    (hcollected : collected = (remaining source projectId query now query.before).filter fun row => windows.hi.days ≤ row.day)
    (hlength : collected.length ≤ limit) (hspan : 0 ≤ windows.span) (hissued : windows.issued ≤ maxWindows) (hfuel : maxWindows < windows.issued + fuel)
    (hreach : Reaches windows (remaining source projectId query now query.before))
    (hresult : collect source projectId query limit fuel windows collected = .ok result) :
    result = (remaining source projectId query now query.before).take (limit + 1) := by
  induction fuel generalizing windows collected with
  | zero => omega
  | succ fuel ih =>
    have hfalls : (remaining source projectId query now query.before).Pairwise fun a b => eventKey b < eventKey a := remaining_falls query.before
    have hmin : ∀ row ∈ remaining source projectId query now query.before, Date.min.days ≤ row.day := fun row hrow => first_le (mem_remaining.mp hrow).1
    have holder : ∀ {lo : Date}, (source.files projectId Date.min lo).isEmpty = true →
        ∀ row ∈ remaining source projectId query now query.before, lo.days ≤ row.day :=
      fun hempty row hrow => day_of_no_files hempty (mem_remaining.mp hrow).1
    generalize hrest : remaining source projectId query now query.before = rest at *
    rw [collect] at hresult
    cases hnext : windows.next with
    | none =>
      rw [hnext] at hresult
      cases hresult
      rw [filter_from_all (hreach.over hmin hnext)] at hcollected
      rw [hcollected] at hlength ⊢
      exact (List.take_of_length_le (by omega)).symm
    | some issued =>
      obtain ⟨⟨lo, hi⟩, windows'⟩ := issued
      rw [hnext] at hresult
      have hreach' := hreach.next hmin hnext hspan hissued
      obtain ⟨rfl, rfl, hnot, hle, -⟩ := next_some hnext hspan
      dsimp only at hresult
      cases hread : parquetSource (source.files projectId lo windows.hi) with
      | error e =>
        rw [hread] at hresult
        cases hresult
      | ok read =>
        rw [hread] at hresult
        dsimp only at hresult
        have hmore : collected ++ (read.map fun files => readWindow files query (limit + 1 - collected.length)).getD [] =
            (rest.filter fun row => lo.days ≤ row.day).take (limit + 1) := by
          rw [read_rows hread, readWindow_remaining _ hkeeps, hrest, filter_days hfalls hle, List.take_append, ← hcollected,
            List.take_of_length_le (Nat.le_succ_of_le hlength)]
        rw [hmore] at hresult
        split at hresult
        · rename_i hfull
          cases hresult
          have hlong := hfull.2
          rw [List.length_take] at hlong
          conv_rhs => rw [Paging.filter_append_filter (falls_days hfalls lo.days)]
          rw [List.take_append_of_le_length (by omega)]
        split at hresult
        · rename_i hempty
          cases hresult
          rw [filter_from_all (holder hempty)]
        · rename_i hnotfull _
          have hshort : ((rest.filter fun row => lo.days ≤ row.day).take (limit + 1)).length ≤ limit := by
            rcases parquetSource_ok hread with ⟨hnone, -⟩ | hsome
            · rw [← hmore, hnone, Option.map_none, Option.getD_none, List.append_nil]
              exact hlength
            · by_contra hlong
              exact hnotfull ⟨by rw [hsome, Option.isSome_some], not_le.mp hlong⟩
          have htake : (rest.filter fun row => lo.days ≤ row.day).take (limit + 1) = rest.filter fun row => lo.days ≤ row.day := by
            rw [List.length_take] at hshort
            exact List.take_of_length_le (by omega)
          rw [htake] at hresult hshort
          exact ih ⟨lo, windows.span * 2, windows.issued + 1⟩ _ (fun row hrow => hkeeps row (lt_of_lt_of_le hrow hle)) rfl hshort
            (by dsimp only; omega) (by dsimp only; omega) (by dsimp only; omega) hreach' hresult

end loop

/-! The cut between two pages. -/
section cut
variable {limit : Nat} {rest rows : List RawEvent} {next : Option DateTime}

/-- Of the rows at one microsecond there are more than a page holds, and the row is not among the first of them. -/
def Beyond (limit : Nat) (rest : List RawEvent) (row : RawEvent) : Prop :=
  limit < (rest.filter fun other => other.micros = row.micros).length ∧ row ∉ (rest.filter fun other => other.micros = row.micros).take limit

/-- A page, what is lost after it, and what is left below the next bound. -/
def CutAt (limit : Nat) (rest rows : List RawEvent) (bound : Int) : Prop :=
  rows ≠ [] ∧ (∃ row ∈ rest, bound ≤ row.micros) ∧ (∃ row ∈ rest, row.micros ≤ bound) ∧
    ∃ lost, (∀ row ∈ lost, Beyond limit rest row) ∧ rest = rows ++ lost ++ rest.filter fun row => row.micros < bound

private theorem cut_clean {front back : List RawEvent} {bound : Int} (hfront : ∀ row ∈ front, bound ≤ row.micros)
    (hback : ∀ row ∈ back, row.micros < bound) (hne : front ≠ []) (hlow : ∃ row ∈ front ++ back, row.micros ≤ bound) :
    CutAt limit (front ++ back) front bound := by
  refine ⟨hne, ?_, hlow, [], List.forall_mem_nil _, ?_⟩
  · obtain ⟨row, hrow⟩ := List.exists_mem_of_ne_nil front hne
    exact ⟨row, List.mem_append_left _ hrow, hfront row hrow⟩
  · rw [List.append_nil, Paging.filter_of_append (fun row hrow => decide_eq_false (not_lt.mpr (hfront row hrow))) fun row hrow =>
      decide_eq_true (hback row hrow)]

/-- A page at one microsecond loses the rest of it. -/
private theorem cut_within {front back : List RawEvent} {bound : Int} (hfront : ∀ row ∈ front, row.micros = bound)
    (hback : ∀ row ∈ back, row.micros ≤ bound) (hfalls : (front ++ back).Pairwise fun a b => eventKey b < eventKey a) (hlength : front.length = limit)
    (hne : front ≠ []) (hmore : ∃ row ∈ back, row.micros = bound) : CutAt limit (front ++ back) front bound := by
  obtain ⟨hfrontFalls, hbackFalls, hacross⟩ := List.pairwise_append.mp hfalls
  have hgroup : (front ++ back).filter (fun row => row.micros = bound) = front ++ back.filter fun row => row.micros = bound := by
    rw [List.filter_append, List.filter_eq_self.mpr fun row hrow => decide_eq_true (hfront row hrow)]
  have hrest : (front ++ back).filter (fun row => row.micros < bound) = back.filter fun row => row.micros < bound := by
    rw [List.filter_append, List.filter_eq_nil_iff.mpr fun row hrow => by simp [hfront row hrow], List.nil_append]
  have hsplit : back = back.filter (fun row => row.micros = bound) ++ back.filter fun row => row.micros < bound := by
    have hclosed : back.Pairwise fun a b => decide (b.micros = bound) = true → decide (a.micros = bound) = true := by
      refine hbackFalls.imp_of_mem fun {a b} ha _ hlt hb => decide_eq_true (le_antisymm (hback a ha) ?_)
      exact of_decide_eq_true hb ▸ micros_le hlt
    conv_lhs => rw [Paging.filter_append_filter hclosed]
    congr 1
    refine List.filter_congr fun row hrow => ?_
    have hle := hback row hrow
    rw [Bool.eq_iff_iff]
    simp only [Bool.not_eq_true', decide_eq_false_iff_not, decide_eq_true_eq]
    omega
  obtain ⟨first, hfirst⟩ := List.exists_mem_of_ne_nil front hne
  refine ⟨hne, ⟨first, List.mem_append_left _ hfirst, (hfront first hfirst).ge⟩, ⟨first, List.mem_append_left _ hfirst, (hfront first hfirst).le⟩,
    back.filter fun row => row.micros = bound, fun row hrow => ?_, ?_⟩
  · obtain ⟨hrow, heq⟩ := List.mem_filter.mp hrow
    rw [Beyond, of_decide_eq_true heq, hgroup, List.length_append, List.take_left' hlength]
    refine ⟨?_, fun hin => absurd (hacross row hin row hrow) (lt_irrefl _)⟩
    obtain ⟨other, hother, hbound⟩ := hmore
    have hpos : 0 < (back.filter fun row => row.micros = bound).length :=
      List.length_pos_of_mem (List.mem_filter.mpr ⟨hother, decide_eq_true hbound⟩)
    omega
  · rw [hrest, List.append_assoc, ← hsplit]

/-- What the cut makes of a page `init ++ [last]` that `boundary` would follow. -/
theorem cutPage_eq (init tail : List RawEvent) (last boundary : RawEvent) (h : init.length + 1 = limit) :
    cutPage ((init ++ last :: boundary :: tail).take (limit + 1)) limit =
      if last.micros ≠ boundary.micros then (init ++ [last], some (toDatetime last.micros))
      else if ((init ++ [last]).takeWhile fun row => row.micros ≠ boundary.micros) = [] then (init ++ [last], some (toDatetime boundary.micros))
      else ((init ++ [last]).takeWhile fun row => row.micros ≠ boundary.micros, some (toDatetime (boundary.micros + 1))) := by
  subst h
  have htake : (init ++ last :: boundary :: tail).take (init.length + 1 + 1) = init ++ [last, boundary] := by
    rw [List.take_append, List.take_of_length_le (by omega), Nat.add_assoc, Nat.add_sub_cancel_left]
    rfl
  have hpage : (init ++ [last, boundary]).take (init.length + 1) = init ++ [last] := by
    rw [List.take_append, List.take_of_length_le (by omega), Nat.add_sub_cancel_left]
    rfl
  have hprefix := (List.prefix_iff_eq_take.mp (List.takeWhile_prefix (l := init ++ [last]) fun row => decide (row.micros ≠ boundary.micros))).symm
  have hlong : init.length + 1 < (init ++ [last, boundary]).length := by simp
  have hboundary : (init ++ [last, boundary]).get ⟨init.length + 1, hlong⟩ = boundary := by simp
  have hlast : (init ++ [last, boundary]).get ⟨init.length + 1 - 1, by omega⟩ = last := by simp
  rw [htake, cutPage, dif_pos hlong]
  simp only [hboundary, hlast, hpage, hprefix, List.length_eq_zero_iff]

/-- More rows than a page are the page, the row after it and others. -/
private theorem split_page (hlimit : 0 < limit) (hmore : limit < rest.length) :
    ∃ init last boundary tail, rest = init ++ last :: boundary :: tail ∧ init.length + 1 = limit := by
  refine ⟨rest.take (limit - 1), rest[limit - 1], rest[limit - 1 + 1], rest.drop (limit - 1 + 1 + 1), ?_, ?_⟩
  · rw [← List.drop_eq_getElem_cons, ← List.drop_eq_getElem_cons, List.take_append_drop]
  · rw [List.length_take]
    omega

/-- From the first row at a microsecond on, falling rows that are not below it stay there. -/
private theorem micros_of_dropWhile {page : List RawEvent} {bound : Int} (hfalls : page.Pairwise fun a b => eventKey b < eventKey a)
    (habove : ∀ row ∈ page, bound ≤ row.micros) : ∀ row ∈ page.dropWhile (fun row => row.micros ≠ bound), row.micros = bound := by
  induction page with
  | nil => exact fun row hrow => by cases hrow
  | cons first others ih =>
    obtain ⟨hfirst, hothers⟩ := List.pairwise_cons.mp hfalls
    by_cases hbound : first.micros = bound
    · intro row hrow
      rw [List.dropWhile_cons_of_neg (by simpa using hbound)] at hrow
      rcases List.mem_cons.mp hrow with rfl | hrow
      · exact hbound
      · exact le_antisymm (hbound ▸ micros_le (hfirst row hrow)) (habove row (List.mem_cons_of_mem first hrow))
    · rw [List.dropWhile_cons_of_pos (by simpa using hbound)]
      exact ih hothers fun row hrow => habove row (List.mem_cons_of_mem first hrow)

/-- A page that reaches a microsecond, without the rows at it, loses nothing. -/
private theorem cut_before {page back : List RawEvent} {bound : Int} (hfalls : page.Pairwise fun a b => eventKey b < eventKey a)
    (habove : ∀ row ∈ page, bound ≤ row.micros) (hbelow : ∀ row ∈ back, row.micros ≤ bound) (hlow : back ≠ [])
    (hne : page.takeWhile (fun row => row.micros ≠ bound) ≠ []) :
    CutAt limit (page ++ back) (page.takeWhile fun row => row.micros ≠ bound) (bound + 1) := by
  have hdrop := micros_of_dropWhile hfalls habove
  obtain ⟨first, hfirst⟩ := List.exists_mem_of_ne_nil back hlow
  have hparts := List.takeWhile_append_dropWhile (p := fun row : RawEvent => decide (row.micros ≠ bound)) (l := page)
  conv in page ++ _ => rw [← hparts, List.append_assoc]
  have hback : ∀ row ∈ page.dropWhile (fun row => row.micros ≠ bound) ++ back, row.micros < bound + 1 := by
    intro row hrow
    rcases List.mem_append.mp hrow with hrow | hrow
    · rw [hdrop row hrow]
      exact Int.lt_succ _
    · exact Int.lt_add_one_of_le (hbelow row hrow)
  refine cut_clean (fun row hrow => ?_) hback hne ⟨first, by simp [hfirst], (hback first (List.mem_append_right _ hfirst)).le⟩
  have himp := List.mem_takeWhile_imp hrow
  have hdiffers : row.micros ≠ bound := by simpa using himp
  have hle := habove row (List.takeWhile_subset _ hrow)
  omega

/-- A page is cut from the rows so that nothing is lost but what is beyond a page at one microsecond. -/
theorem cutPage_cut (hfalls : rest.Pairwise fun a b => eventKey b < eventKey a) (hlimit : 0 < limit)
    (h : cutPage (rest.take (limit + 1)) limit = (rows, next)) :
    (next = none → rest = rows) ∧ ∀ time, next = some time → ∃ bound, time = toDatetime bound ∧ CutAt limit rest rows bound := by
  by_cases hmore : limit < rest.length
  swap
  · rw [List.take_of_length_le (by omega), cutPage, dif_neg hmore] at h
    cases h
    exact ⟨fun _ => rfl, fun time htime => by cases htime⟩
  obtain ⟨init, last, boundary, tail, rfl, hlength⟩ := split_page hlimit hmore
  rw [cutPage_eq init tail last boundary hlength] at h
  have happend : init ++ last :: boundary :: tail = (init ++ [last]) ++ boundary :: tail := by simp
  rw [happend] at hfalls ⊢
  have hne : init ++ [last] ≠ [] := by simp
  have hlength' : (init ++ [last]).length = limit := by simpa using hlength
  have hmem : last ∈ init ++ [last] := by simp
  obtain ⟨hfront, hback, hacross⟩ := List.pairwise_append.mp hfalls
  have hlast : ∀ row ∈ init ++ [last], last.micros ≤ row.micros := by
    intro row hrow
    rcases List.mem_append.mp hrow with hrow | hrow
    · exact micros_le ((List.pairwise_append.mp hfront).2.2 row hrow last (List.mem_singleton_self last))
    · rw [List.mem_singleton.mp hrow]
  have habove : ∀ row ∈ init ++ [last], boundary.micros ≤ row.micros := fun row hrow =>
    micros_le (hacross row hrow boundary List.mem_cons_self)
  have hbelow : ∀ row ∈ boundary :: tail, row.micros ≤ boundary.micros := by
    intro row hrow
    rcases List.mem_cons.mp hrow with rfl | hrow
    · exact le_rfl
    · exact micros_le (List.rel_of_pairwise_cons hback hrow)
  have hdrop := micros_of_dropWhile hfront habove
  generalize init ++ [last] = page at *
  have hparts := List.takeWhile_append_dropWhile (p := fun row : RawEvent => decide (row.micros ≠ boundary.micros)) (l := page)
  split at h
  · rename_i hdiffers
    cases h
    have hlt : boundary.micros < last.micros := lt_of_le_of_ne (habove last hmem) (Ne.symm hdiffers)
    refine ⟨fun hnone => absurd hnone (Option.some_ne_none _), fun time htime => ⟨last.micros, (Option.some.inj htime).symm, ?_⟩⟩
    exact cut_clean hlast (fun row hrow => lt_of_le_of_lt (hbelow row hrow) hlt) hne ⟨last, List.mem_append_left _ hmem, le_rfl⟩
  split at h
  · rename_i hall
    cases h
    refine ⟨fun hnone => absurd hnone (Option.some_ne_none _), fun time htime => ⟨boundary.micros, (Option.some.inj htime).symm, ?_⟩⟩
    refine cut_within (fun row hrow => hdrop row ?_) hbelow hfalls hlength' hne ⟨boundary, List.mem_cons_self, rfl⟩
    rw [hall, List.nil_append] at hparts
    rwa [hparts]
  · rename_i hsome
    cases h
    refine ⟨fun hnone => absurd hnone (Option.some_ne_none _), fun time htime => ⟨boundary.micros + 1, (Option.some.inj htime).symm, ?_⟩⟩
    exact cut_before hfront habove hbelow (List.cons_ne_nil boundary tail) hsome

end cut
end Hoglet.Explore
