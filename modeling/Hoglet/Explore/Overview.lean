import Hoglet.Explore.Series
import Hoglet.Query.Spans

/-! The fast path of the web overview against the general SQL. -/
namespace Hoglet.Explore
open Capture
open Query (Interval Chrono fromDatetime)
variable {U : Type} [LinearOrder U] {overrides : String → Option String} {plan : Plan U} {rows : List (Row U)} {C : Chrono} {interval : Interval}
  {days : List DateTime}

/-- The overviews agree where the totals of both periods do: visitors and pageviews always agree. -/
private theorem agree_iff (hinterval : interval ≠ .month) (hdays : buckets C plan.fromTime plan.toTime interval = some days)
    (hlength : days.length ≤ 256) {w₁' : Window (Row U) Row.ts} {w₂' : Window (Row U × Nat) fun m => m.1.ts}
    {w₁ : Window (Row U) Row.order} {w₂ : Window (Row U × Nat) fun m => m.1.order} :
    overviewFast overrides plan rows w₁' w₂' interval days = some (overview overrides plan rows w₁ w₂ interval days) ↔
      ∀ period < 2, fastTotals overrides plan rows w₁' w₂' period = totals (generalSessions overrides plan rows w₁ w₂ period) := by
  obtain ⟨unit, hunit⟩ : ∃ unit, unitUs interval = some unit := by
    cases interval with
    | hour | day | week => exact ⟨_, rfl⟩
    | month => exact absurd rfl hinterval
  obtain ⟨first, rest, rfl, hcovers⟩ := buckets_cover hunit plan.ordered hdays
  have hwords : ¬ maxBucketWords < max (((first :: rest).length + 63) / 64) 1 := by
    rw [maxBucketWords]
    omega
  generalize hwords' : max (((first :: rest).length + 63) / 64) 1 = words at hwords
  have hvisits := visits_agree overrides rows hcovers w₁ w₂ words (by omega)
  have hfast : overviewFast overrides plan rows w₁' w₂' interval (first :: rest) = some
      ⟨[fastStats overrides plan rows w₁' w₂' (generalStats overrides plan rows w₁ w₂ 0).visitors
          (generalStats overrides plan rows w₁ w₂ 0).pageviews 0,
        fastStats overrides plan rows w₁' w₂' (generalStats overrides plan rows w₁ w₂ 1).visitors
          (generalStats overrides plan rows w₁ w₂ 1).pageviews 1],
        (overview overrides plan rows w₁ w₂ interval (first :: rest)).visitorsSeries,
        (overview overrides plan rows w₁ w₂ interval (first :: rest)).pageviewsSeries⟩ := by
    simp only [overviewFast, hunit, hwords', if_neg hwords, hvisits]
  have hperiods : (overview overrides plan rows w₁ w₂ interval (first :: rest)).periods =
    [generalStats overrides plan rows w₁ w₂ 0, generalStats overrides plan rows w₁ w₂ 1] := rfl
  rw [hfast, Option.some_inj, Overview.mk.injEq, hperiods, List.cons.injEq, List.cons.injEq, fastStats_eq_iff w₁ w₂ rfl rfl,
    fastStats_eq_iff w₁ w₂ rfl rfl]
  constructor
  · rintro ⟨⟨hprevious, hcurrent, -⟩, -⟩ period hperiod
    rcases Nat.le_one_iff_eq_zero_or_eq_one.mp (Nat.le_of_lt_succ hperiod) with rfl | rfl
    · exact hprevious
    · exact hcurrent
  · intro h
    exact ⟨⟨h 0 (by decide), h 1 (by decide), rfl⟩, rfl, rfl⟩

/-- The fast path gives the overview of the general SQL, whatever order each window chooses for the events that tie, where every partition of
the events without a session id is settled, and nowhere else. -/
theorem overview_fast_iff_settled (hinterval : interval ≠ .month) (hdays : buckets C plan.fromTime plan.toTime interval = some days)
    (hlength : days.length ≤ 256) (hrows : (rows.map Row.order).Nodup) :
    (∀ (w₁' : Window (Row U) Row.ts) (w₂' : Window (Row U × Nat) fun m => m.1.ts) (w₁ : Window (Row U) Row.order)
      (w₂ : Window (Row U × Nat) fun m => m.1.order),
        overviewFast overrides plan rows w₁' w₂' interval days = some (overview overrides plan rows w₁ w₂ interval days)) ↔
      ∀ part ∈ sessionless overrides plan rows, Settled part.2 := by
  constructor
  · intro h
    apply (totals_agree_iff (Window.by Row.order) (Window.by fun m : Row U × Nat => m.1.order) hrows).mp
    intro w₁' w₂'
    exact (agree_iff hinterval hdays hlength).mp (h w₁' w₂' _ _)
  · intro hs w₁' w₂' w₁ w₂
    apply (agree_iff hinterval hdays hlength).mpr
    exact (totals_agree_iff w₁ w₂ hrows).mpr hs w₁' w₂'

/-! Two pageviews of one person without a session id, in a request of one day. -/
section tied

def dayPlan : Plan Nat := ⟨.ofSeconds 0, .ofSeconds 86400, none, fun _ => true, by decide⟩

def pageviewAt (second : Int) (uuid : Nat) : Row Nat := ⟨second * 1000000, uuid, "$pageview", "visitor", none⟩

/-- Where the pageviews tie, the window that marks the start of a visit takes the second one first. -/
def secondFirst : Window (Row Nat) Row.ts := Window.ranked Row.ts fun row => 1 - row.uuid

/-- The window that counts the marks takes it last. -/
def secondLast : Window (Row Nat × Nat) fun m => m.1.ts := Window.ranked (fun m : Row Nat × Nat => m.1.ts) fun m => m.1.uuid

theorem overview_fast_of_a_second_apart :
    overviewFast (fun _ => none) dayPlan [pageviewAt 0 0, pageviewAt 1 1] secondFirst secondLast .day [.ofSeconds 0] =
      some (overview (fun _ => none) dayPlan [pageviewAt 0 0, pageviewAt 1 1] (Window.by Row.order)
        (Window.by fun m : Row Nat × Nat => m.1.order) .day [.ofSeconds 0]) :=
  (overview_fast_iff_settled (C := Chrono.small) (by decide) (by decide) (by decide) (by decide)).mpr (by decide) _ _ _ _

/-- The fast path finds two sessions where the general SQL finds one. -/
theorem overview_fast_of_tied_pageviews :
    buckets Chrono.small dayPlan.fromTime dayPlan.toTime .day = some [.ofSeconds 0] ∧
      ([pageviewAt 0 0, pageviewAt 0 1].map Row.order).Nodup ∧
      overviewFast (fun _ => none) dayPlan [pageviewAt 0 0, pageviewAt 0 1] secondFirst secondLast .day [.ofSeconds 0] ≠
        some (overview (fun _ => none) dayPlan [pageviewAt 0 0, pageviewAt 0 1] (Window.by Row.order)
          (Window.by fun m : Row Nat × Nat => m.1.order) .day [.ofSeconds 0]) := by
  refine ⟨by decide, by decide, fun h => ?_⟩
  have hsessions := congrArg (Option.map fun answer => answer.periods.map PeriodStats.sessions) h
  revert hsessions
  decide

end tied
end Hoglet.Explore
