import Hoglet.Control.Throttle
import Hoglet.Since

/-! Runs of the login throttle: its tables stay small, no email waits longer than a minute, and which calls lift a block
before its time. -/
namespace Hoglet.Control.Throttle

/-- Who is blocked. -/
inductive Caller where
  | email (email : String)
  | source (source : String)

/-- The attempts of a caller. -/
def Caller.Names : Caller → String → Option String → Prop
  | .email e, e', _ => e' = e
  | .source s, _, s' => s' = some s

def Tables.row (t : Tables) : Caller → Option Entry
  | .email email => t.emails.get (normalizeEmail email)
  | .source source => t.sources.get source

def blockEnd (t : Tables) (caller : Caller) : Option Nat := (t.row caller).bind Entry.blockedUntil

/-- How long `check` makes a caller wait. -/
def wait (t : Tables) (caller : Caller) (now : Nat) : Nat := entryWait (t.row caller) now

section wait
variable {t : Tables} {caller : Caller} {now stop w : Nat} {email : String} {source : Option String}

theorem check_error_iff : check t email source now = .error w ↔
    w ≠ 0 ∧ w = max (wait t (.email email) now) ((source.map fun source => wait t (.source source) now).getD 0) := by
  change (if max (wait t (.email email) now) ((source.map fun source => wait t (.source source) now).getD 0) = 0 then
    Except.ok () else .error (max (wait t (.email email) now) ((source.map fun source => wait t (.source source) now).getD 0))) =
      .error w ↔ _
  split
  · rename_i hzero
    simp only [reduceCtorEq, false_iff, not_and]
    exact fun hw heq => hw (heq.trans hzero)
  · rename_i hne
    rw [Except.error.injEq, eq_comm]
    exact ⟨fun heq => ⟨heq ▸ hne, heq⟩, And.right⟩

theorem wait_pos : 0 < wait t caller now ↔ ∃ stop, blockEnd t caller = some stop ∧ now < stop := by
  rw [wait, entryWait, blockEnd]
  cases (t.row caller).bind Entry.blockedUntil with
  | none => simp
  | some stop =>
    simp only [Option.some.injEq, exists_eq_left']
    split <;> omega

theorem wait_eq (h : now < stop) : wait t caller now = stop - now ↔ blockEnd t caller = some stop := by
  rw [wait, entryWait, blockEnd]
  cases (t.row caller).bind Entry.blockedUntil with
  | none =>
    simp only [reduceCtorEq, iff_false]
    omega
  | some stop' =>
    simp only [Option.some.injEq]
    split <;> omega

theorem check_of_wait (hwait : 0 < wait t caller now) (hnames : caller.Names email source) :
    ∃ w, check t email source now = .error w := by
  refine ⟨_, check_error_iff.mpr ⟨?_, rfl⟩⟩
  cases caller with
  | email e =>
    cases hnames
    omega
  | source s =>
    cases hnames
    rw [Option.map_some, Option.getD_some]
    omega

end wait

/-! What is claimed of a run. -/
section claimed

def Made.fails (m : Made) (key : String) : Prop := ∃ email source, m.call = .recordFailure email source ∧ normalizeEmail email = key

/-- A success of the email itself. -/
def Made.forgives (m : Made) : Caller → Prop
  | .email e => ∃ email, m.call = .recordSuccess email ∧ normalizeEmail email = normalizeEmail e
  | .source _ => False

/-- The last failure of an email was then. -/
def LastFailed (run : List Made) (key : String) (last : Nat) : Prop :=
  Since (fun _ m => m.fails key ∧ m.now = last) (fun _ m => ¬ m.fails key) run

/-- Whoever is refused until some time is refused until then, whatever happens but the success of the email itself. -/
def Steadfast (run : List Made) : Prop := ∀ past later caller now stop, run = past ++ later →
  (∀ m ∈ past, m.now ≤ now) → (∀ m ∈ later, now ≤ m.now) → now < stop → wait (after past) caller now = stop - now →
  (∀ m ∈ later, ¬ m.forgives caller) → ∀ now', now ≤ now' → (∀ m ∈ later, m.now ≤ now') → now' < stop →
  0 < wait (after run) caller now' ∧ ∀ email source, caller.Names email source → ∃ w, check (after run) email source now' = .error w

structure Throttled (run : List Made) : Prop where
  emails : (after run).emails.size ≤ maxTracked
  sources : (after run).sources.size ≤ maxTracked
  delays : ∀ email now w, (∀ m ∈ run, m.now ≤ now) → check (after run) email none now = .error w →
    ∃ last, LastFailed run (normalizeEmail email) last ∧ now + w ≤ last + emailMaxDelay
  steadfast : Steadfast run

/-- An insertion into a full table whose oldest row, of those it keeps, does not block any more. -/
def SparesOldest (visits : Visits String Entry) (table : Table String Entry) (key : String) (now window : Nat) : Prop :=
  table.get key = none → maxTracked ≤ table.size → ∀ k entry, oldest visits (retain table now window) = some k →
    table.get k = some entry → entry.blocked now = false

/-- The fifth failure of an email's window, unless a block from the window before lasts more than a second longer. -/
def SparesOwn (table : Table String Entry) (key : String) (now : Nat) : Prop :=
  ∀ entry stop, table.get key = some entry → entry.failures + 1 = emailFreeFailures → now - entry.since < emailWindow →
    entry.blockedUntil = some stop → stop ≤ now + seconds 1

/-- A call that lifts no block. -/
def Spares (t : Tables) (m : Made) : Prop :=
  match m.call with
  | .recordFailure email source =>
    SparesOldest m.emailVisits t.emails (normalizeEmail email) m.now emailWindow ∧ SparesOwn t.emails (normalizeEmail email) m.now ∧
      ∀ s, source = some s → SparesOldest m.sourceVisits t.sources s m.now sourceWindow
  | _ => True

end claimed

/-! A failure in one of the tables. -/
section fail
variable {visits : Visits String Entry} {table : Table String Entry} {key k : String} {now window : Nat} {entry e : Entry}
  {fail : Nat → Entry → Entry}

theorem get_failIn_key : (failIn visits window fail table key now).get key = some (fail now ((table.get key).getD ⟨0, now, none⟩)) := by
  rw [failIn, Table.get_update, get_insertBounded_key, Option.map_some, if_pos rfl]

theorem get_failIn (hk : k ≠ key) : (failIn visits window fail table key now).get k = some entry ↔
    table.get k = some entry ∧ ¬ Dropped visits table key now window k entry := by
  rw [← get_insertBounded hk, failIn, Table.get_update]
  simp [hk]

theorem size_failIn (h : table.size ≤ maxTracked) : (failIn visits window fail table key now).size ≤ maxTracked := by
  rw [failIn, Table.size_update]
  exact size_insertBounded h

/-- A row that blocks is kept when no such row is evicted. -/
theorem not_dropped (hspares : SparesOldest visits table key now window) (hentry : table.get k = some entry)
    (hblocked : entry.blocked now = true) : ¬ Dropped visits table key now window k entry := by
  rintro ⟨habsent, hfull, ⟨-, hover⟩ | holdest⟩
  · rw [hover] at hblocked
    cases hblocked
  · rw [hspares habsent hfull k entry holdest hentry] at hblocked
    cases hblocked

theorem delay_le (failures : Nat) : delay failures ≤ emailMaxDelay := Nat.min_le_right _ _

theorem delay_saturated {failures : Nat} (h : 11 ≤ failures) : delay failures = emailMaxDelay := by
  have hshift : min (failures - emailFreeFailures) 6 = 6 := by
    rw [emailFreeFailures]
    omega
  rw [delay, hshift]
  rfl

theorem delay_mono {a b : Nat} (h : a ≤ b) : delay a ≤ delay b := by
  refine min_le_min_right _ (Nat.mul_le_mul_right _ (Nat.pow_le_pow_right (by decide) ?_))
  omega

theorem delay_saturatingAdd (failures : Nat) : delay failures ≤ delay (saturatingAdd failures 1) := by
  by_cases h : failures + 1 ≤ u32Max
  · rw [saturatingAdd, Nat.min_eq_left h]
    exact delay_mono (Nat.le_succ _)
  · rw [saturatingAdd, Nat.min_eq_right (Nat.le_of_not_le h), delay_saturated (show 11 ≤ u32Max by decide)]
    exact delay_le _

theorem failEmail_reset (h : emailWindow ≤ now - entry.since) : failEmail now entry = ⟨1, now, entry.blockedUntil⟩ := by
  rw [failEmail, if_pos h]
  rfl

theorem failEmail_counted (h : now - entry.since < emailWindow) : failEmail now entry =
    ⟨saturatingAdd entry.failures 1, entry.since, if emailFreeFailures ≤ saturatingAdd entry.failures 1 then
      some (now + delay (saturatingAdd entry.failures 1)) else entry.blockedUntil⟩ := by
  rw [failEmail, if_neg (Nat.not_le.mpr h)]
  dsimp only
  split <;> rfl

/-- A failure blocks from now on or leaves the block there was. -/
theorem failEmail_blockedUntil (now : Nat) (entry : Entry) : (failEmail now entry).blockedUntil = entry.blockedUntil ∨
    (failEmail now entry).blockedUntil = some (now + delay (failEmail now entry).failures) := by
  rcases Nat.lt_or_ge (now - entry.since) emailWindow with h | h
  · rw [failEmail_counted h]
    dsimp only
    split
    · exact .inr rfl
    · exact .inl rfl
  · rw [failEmail_reset h]
    exact .inl rfl

/-- After enough failures of its window an email is blocked from the last one on. -/
theorem failEmail_free (h : emailFreeFailures ≤ (failEmail now entry).failures) :
    (failEmail now entry).blockedUntil = some (now + delay (failEmail now entry).failures) := by
  rcases Nat.lt_or_ge (now - entry.since) emailWindow with hwindow | hwindow
  · rw [failEmail_counted hwindow] at h ⊢
    exact if_pos h
  · rw [failEmail_reset hwindow] at h
    exact absurd (show emailFreeFailures ≤ 1 from h) (by decide)

theorem failSource_reset (h : sourceWindow ≤ now - entry.since) : failSource now entry = ⟨1, now, none⟩ := by
  rw [failSource, if_pos h]
  rfl

theorem failSource_counted (h : now - entry.since < sourceWindow) : failSource now entry =
    ⟨saturatingAdd entry.failures 1, entry.since, if sourceMaxFailures ≤ saturatingAdd entry.failures 1 then
      some (entry.since + sourceWindow) else entry.blockedUntil⟩ := by
  rw [failSource, if_neg (Nat.not_le.mpr h)]
  dsimp only
  split <;> rfl

end fail
/-! What every run keeps. -/
section sound
variable {t : Tables} {m : Made} {run past later : List Made} {k : String} {e : Entry}

/-- A row of an email is the failure of one, or was there. -/
theorem step_emails (h : (step t m).emails.get k = some e) :
    (m.fails k ∧ ∃ old, e = failEmail m.now old ∧ ∀ stop, old.blockedUntil = some stop → t.emails.get k = some old) ∨
      ¬ m.fails k ∧ t.emails.get k = some e := by
  obtain ⟨call, now, emailVisits, sourceVisits⟩ := m
  cases call with
  | check email source => exact .inr ⟨by simp [Made.fails], h⟩
  | recordFailure email source =>
    by_cases hk : k = normalizeEmail email
    · subst hk
      refine .inl ⟨⟨email, source, rfl, rfl⟩, _, (Option.some.inj (get_failIn_key.symm.trans h)).symm, fun stop hstop => ?_⟩
      cases hget : t.emails.get (normalizeEmail email) with
      | none =>
        rw [hget] at hstop
        cases hstop
      | some old => rfl
    · refine .inr ⟨?_, ((get_failIn hk).mp h).1⟩
      rintro ⟨email', source', hcall, heq⟩
      cases hcall
      exact hk heq.symm
  | recordSuccess email =>
    refine .inr ⟨by simp [Made.fails], ?_⟩
    change (t.emails.remove (normalizeEmail email)).get k = some e at h
    rw [Table.get_remove] at h
    split at h
    · cases h
    · exact h

/-- A row of a source is the failure of one, or was there. -/
theorem step_sources (h : (step t m).sources.get k = some e) :
    (∃ old, e = failSource m.now old ∧ ∀ stop, old.blockedUntil = some stop → t.sources.get k = some old) ∨
      t.sources.get k = some e := by
  obtain ⟨call, now, emailVisits, sourceVisits⟩ := m
  cases call with
  | check email source => exact .inr h
  | recordFailure email source =>
    cases source with
    | none => exact .inr h
    | some source =>
      by_cases hk : k = source
      · subst hk
        refine .inl ⟨_, (Option.some.inj (get_failIn_key.symm.trans h)).symm, fun stop hstop => ?_⟩
        cases hget : t.sources.get k with
        | none =>
          rw [hget] at hstop
          cases hstop
        | some old => rfl
      · exact .inr ((get_failIn hk).mp h).1
  | recordSuccess email => exact .inr h

structure Sound (run : List Made) (t : Tables) : Prop where
  emails : t.emails.size ≤ maxTracked
  sources : t.sources.size ≤ maxTracked
  keys : ∀ k e, t.emails.get k = some e → ∃ email, normalizeEmail email = k
  delayed : ∀ k e stop now, t.emails.get k = some e → e.blockedUntil = some stop → emailFreeFailures ≤ e.failures →
    (∀ m ∈ run, m.now ≤ now) → stop ≤ now + delay e.failures
  failed : ∀ k e stop, t.emails.get k = some e → e.blockedUntil = some stop →
    ∃ last, LastFailed run k last ∧ stop ≤ last + emailMaxDelay
  capped : ∀ k e stop, t.sources.get k = some e → e.blockedUntil = some stop → stop = e.since + sourceWindow

theorem LastFailed.le {last now : Nat} (h : LastFailed run k last) (hnow : ∀ m ∈ run, m.now ≤ now) : last ≤ now := by
  obtain ⟨past, m, later, rfl, ⟨-, rfl⟩, -⟩ := h
  exact hnow m (by simp)

theorem Sound.step (h : Sound run t) (hnow : ∀ p ∈ run, p.now ≤ m.now) : Sound (run ++ [m]) (step t m) where
  emails := by
    rw [Throttle.step]
    cases m.call with
    | check email source => exact h.emails
    | recordFailure email source => exact size_failIn h.emails
    | recordSuccess email => exact (List.length_filter_le _ _).trans h.emails
  sources := by
    rw [Throttle.step]
    cases m.call with
    | check email source => exact h.sources
    | recordFailure email source =>
      cases source with
      | none => exact h.sources
      | some source => exact size_failIn h.sources
    | recordSuccess email => exact h.sources
  keys := by
    intro k e he
    rcases step_emails he with ⟨⟨email, source, -, heq⟩, -⟩ | ⟨-, he⟩
    · exact ⟨email, heq⟩
    · exact h.keys k e he
  delayed := by
    intro k e stop now he hstop hfailures hlater
    rcases step_emails he with ⟨-, old, rfl, -⟩ | ⟨-, he⟩
    · rw [failEmail_free hfailures, Option.some.injEq] at hstop
      have hm := hlater m (by simp)
      omega
    · exact h.delayed k e stop now he hstop hfailures fun p hp => hlater p (List.mem_append_left _ hp)
  failed := by
    intro k e stop he hstop
    rcases step_emails he with ⟨hfails, old, rfl, hold⟩ | ⟨hfails, he⟩
    · refine ⟨m.now, since_append.mpr (.inl ⟨hfails, rfl⟩), ?_⟩
      rcases failEmail_blockedUntil m.now old with heq | heq
      · rw [heq] at hstop
        obtain ⟨last, hlast, hle⟩ := h.failed k old stop (hold stop hstop) hstop
        exact hle.trans (Nat.add_le_add_right (hlast.le hnow) _)
      · rw [heq, Option.some.injEq] at hstop
        rw [← hstop]
        exact Nat.add_le_add_left (delay_le _) _
    · obtain ⟨last, hlast, hle⟩ := h.failed k e stop he hstop
      exact ⟨last, since_append.mpr (.inr ⟨hlast, hfails⟩), hle⟩
  capped := by
    intro k e stop he hstop
    rcases step_sources he with ⟨old, rfl, hold⟩ | he
    · rcases Nat.lt_or_ge (m.now - old.since) sourceWindow with hwindow | hwindow
      · rw [failSource_counted hwindow] at hstop ⊢
        dsimp only at hstop ⊢
        split at hstop
        · exact (Option.some.inj hstop).symm
        · exact h.capped k old stop (hold stop hstop) hstop
      · rw [failSource_reset hwindow] at hstop
        cases hstop
    · exact h.capped k e stop he hstop

theorem after_append (run : List Made) (m : Made) : after (run ++ [m]) = step (after run) m := List.foldl_append

def Sorted (run : List Made) : Prop := run.Pairwise (·.now ≤ ·.now)

instance : DecidablePred Sorted := fun run => inferInstanceAs (Decidable (run.Pairwise (·.now ≤ ·.now)))

theorem Sorted.append (h : Sorted (past ++ later)) : Sorted past ∧ ∀ p ∈ past, ∀ m ∈ later, p.now ≤ m.now :=
  ⟨(List.pairwise_append.mp h).1, (List.pairwise_append.mp h).2.2⟩

theorem after_sound (h : Sorted run) : Sound run (after run) := by
  induction run using List.reverseRecOn with
  | nil =>
    have hemails : ∀ k, (after []).emails.get k = none := fun _ => rfl
    have hsources : ∀ k, (after []).sources.get k = none := fun _ => rfl
    refine ⟨Nat.zero_le _, Nat.zero_le _, ?_, ?_, ?_, ?_⟩
    all_goals simp [hemails, hsources]
  | append_singleton run m ih =>
    obtain ⟨hrun, hnow⟩ := h.append
    rw [after_append]
    exact (ih hrun).step fun p hp => hnow p hp m (by simp)

end sound
/-! Blocks from one call to the next. -/
section block
variable {t : Tables} {m : Made} {run past later : List Made} {caller : Caller} {table : Table String Entry} {key k : String}
  {now stop window : Nat} {visits : Visits String Entry} {e : Entry}

/-- The fifth failure of a window aside, a failure of an email leaves its block as long as it was. -/
theorem failEmail_keeps (hstop : e.blockedUntil = some stop) (hdelayed : emailFreeFailures ≤ e.failures → stop ≤ now + delay e.failures)
    (hown : e.failures + 1 = emailFreeFailures → now - e.since < emailWindow → stop ≤ now + seconds 1) :
    ∃ stop', (failEmail now e).blockedUntil = some stop' ∧ stop ≤ stop' := by
  rcases Nat.lt_or_ge (now - e.since) emailWindow with hwindow | hwindow
  · rw [failEmail_counted hwindow]
    dsimp only
    split
    · rename_i hfree
      refine ⟨_, rfl, ?_⟩
      rcases Nat.lt_or_ge e.failures emailFreeFailures with hlt | hge
      · have hsaturating : saturatingAdd e.failures 1 ≤ e.failures + 1 := Nat.min_le_left _ _
        have hfifth : e.failures + 1 = emailFreeFailures := by omega
        have hcount : saturatingAdd e.failures 1 = emailFreeFailures := by omega
        rw [hcount]
        exact hown hfifth hwindow
      · exact (hdelayed hge).trans (Nat.add_le_add_left (delay_saturatingAdd _) _)
    · exact ⟨stop, hstop, le_rfl⟩
  · rw [failEmail_reset hwindow]
    exact ⟨stop, hstop, le_rfl⟩

/-- A failure of a source leaves its block as it was. -/
theorem failSource_keeps (hstop : e.blockedUntil = some stop) (hcapped : stop = e.since + sourceWindow) (hnow : now < stop) :
    (failSource now e).blockedUntil = some stop := by
  have hwindow : now - e.since < sourceWindow := by
    have hpos : 0 < sourceWindow := by decide
    omega
  rw [failSource_counted hwindow]
  dsimp only
  split
  · rw [hcapped]
  · exact hstop

theorem blocked_of_lt (hstop : e.blockedUntil = some stop) (hnow : now < stop) : e.blocked now = true := by
  rw [Entry.blocked, hstop]
  exact decide_eq_true hnow

theorem blockEnd_eq_some : blockEnd t caller = some stop ↔ ∃ e, t.row caller = some e ∧ e.blockedUntil = some stop := Option.bind_eq_some_iff

/-- A call that spares every block keeps whoever is still blocked blocked for as long. -/
theorem blockEnd_step (hsound : Sound run t) (hrun : ∀ p ∈ run, p.now ≤ m.now) (hspares : Spares t m) (hstop : blockEnd t caller = some stop)
    (hnow : m.now < stop) (hforgives : ¬ m.forgives caller) : ∃ stop', blockEnd (step t m) caller = some stop' ∧ stop ≤ stop' := by
  obtain ⟨call, now, emailVisits, sourceVisits⟩ := m
  obtain ⟨e, he, hblocked⟩ := blockEnd_eq_some.mp hstop
  have hin := blocked_of_lt hblocked hnow
  cases call with
  | check email source => exact ⟨stop, hstop, le_rfl⟩
  | recordFailure email source =>
    obtain ⟨holdest, hown, hsource⟩ := hspares
    cases caller with
    | email email' =>
      by_cases hk : normalizeEmail email' = normalizeEmail email
      · have he' : t.emails.get (normalizeEmail email) = some e := hk ▸ he
        obtain ⟨stop', hstop', hle⟩ := failEmail_keeps hblocked
          (fun hfree => hsound.delayed _ e stop now he' hblocked hfree hrun) fun hfifth hwindow => hown e stop he' hfifth hwindow hblocked
        refine ⟨stop', blockEnd_eq_some.mpr ⟨_, ?_, hstop'⟩, hle⟩
        change (failIn _ _ _ _ _ _).get (normalizeEmail email') = _
        rw [hk, get_failIn_key, he']
        rfl
      · exact ⟨stop, blockEnd_eq_some.mpr ⟨e, (get_failIn hk).mpr ⟨he, not_dropped holdest he hin⟩, hblocked⟩, le_rfl⟩
    | source source' =>
      cases source with
      | none => exact ⟨stop, hstop, le_rfl⟩
      | some source =>
        by_cases hk : source' = source
        · subst hk
          have hkept := failSource_keeps hblocked (hsound.capped _ e stop he hblocked) hnow
          refine ⟨stop, blockEnd_eq_some.mpr ⟨_, ?_, hkept⟩, le_rfl⟩
          change (failIn _ _ _ _ _ _).get source' = _
          rw [get_failIn_key, show t.sources.get source' = some e from he]
          rfl
        · exact ⟨stop, blockEnd_eq_some.mpr ⟨e, (get_failIn hk).mpr ⟨he, not_dropped (hsource source rfl) he hin⟩, hblocked⟩, le_rfl⟩
  | recordSuccess email =>
    cases caller with
    | email email' =>
      have hk : normalizeEmail email' ≠ normalizeEmail email := fun heq => hforgives ⟨email, rfl, heq.symm⟩
      refine ⟨stop, blockEnd_eq_some.mpr ⟨e, ?_, hblocked⟩, le_rfl⟩
      change (t.emails.remove (normalizeEmail email)).get (normalizeEmail email') = some e
      rw [Table.get_remove, if_neg hk]
      exact he
    | source source => exact ⟨stop, hstop, le_rfl⟩

theorem blockEnd_after (hsorted : Sorted (past ++ later)) (hspares : ∀ before m rest, later = before ++ m :: rest → Spares (after (past ++ before)) m)
    (hstop : blockEnd (after past) caller = some stop) (hnow : ∀ m ∈ later, m.now < stop) (hforgives : ∀ m ∈ later, ¬ m.forgives caller) :
    ∃ stop', blockEnd (after (past ++ later)) caller = some stop' ∧ stop ≤ stop' := by
  induction later using List.reverseRecOn with
  | nil =>
    rw [List.append_nil]
    exact ⟨stop, hstop, le_rfl⟩
  | append_singleton later m ih =>
    rw [← List.append_assoc] at hsorted ⊢
    obtain ⟨hbefore, hrun⟩ := hsorted.append
    obtain ⟨stop₁, hstop₁, hle₁⟩ := ih hbefore (fun before m' rest heq => hspares before m' (rest ++ [m]) (by simp [heq]))
      (fun p hp => hnow p (List.mem_append_left _ hp)) fun p hp => hforgives p (List.mem_append_left _ hp)
    obtain ⟨stop₂, hstop₂, hle₂⟩ := blockEnd_step (after_sound hbefore) (fun p hp => hrun p hp m (by simp)) (hspares later m [] rfl)
      hstop₁ ((hnow m (by simp)).trans_le hle₁) (hforgives m (by simp))
    rw [after_append]
    exact ⟨stop₂, hstop₂, hle₁.trans hle₂⟩

theorem steadfast_of_spares (hsorted : Sorted run) (hspares : ∀ past m later, run = past ++ m :: later → Spares (after past) m) :
    Steadfast run := by
  rintro past later caller now stop rfl - - hlt hwait hforgives now' hnow' hlater hlt'
  obtain ⟨stop', hstop', hle⟩ := blockEnd_after hsorted (fun before m rest heq => hspares (past ++ before) m rest (by simp [heq]))
    ((wait_eq hlt).mp hwait) (fun m hm => (hlater m hm).trans_lt hlt') hforgives
  have hpos : 0 < wait (after (past ++ later)) caller now' := wait_pos.mpr ⟨stop', hstop', hlt'.trans_le hle⟩
  exact ⟨hpos, fun email source hnames => check_of_wait hpos hnames⟩

/-- Whoever is blocked at a call that forgives nobody, and for less time after it, is not refused until the time first named. -/
theorem not_steadfast (caller : Caller) (hrun : ∀ p ∈ past, p.now ≤ m.now) (hforgives : ¬ m.forgives caller) (hstop : blockEnd (after past) caller = some stop)
    (hnow : m.now < stop) (hlifted : ∃ now', m.now ≤ now' ∧ now' < stop ∧ wait (after (past ++ [m])) caller now' = 0) :
    ¬ Steadfast (past ++ [m]) := by
  intro hsteadfast
  obtain ⟨now', hle, hlt, hzero⟩ := hlifted
  have hpos := (hsteadfast past [m] caller m.now stop rfl hrun (by simp) hnow ((wait_eq hnow).mpr hstop) (by simpa using hforgives)
    now' hle (by simpa using hle) hlt).1
  omega

end block
/-! Which runs keep every block. -/
section spares
variable {m : Made} {run past : List Made}

private theorem entryWait_over {e : Entry} {stop now : Nat} (hstop : e.blockedUntil = some stop) (hle : stop ≤ now) :
    entryWait (some e) now = 0 := by
  rw [entryWait, Option.bind_some, hstop]
  exact if_neg (Nat.not_lt.mpr hle)

private theorem evicted_wait {visits : Visits String Entry} {table : Table String Entry} {key k : String} {now window : Nat}
    {fail : Nat → Entry → Entry} {e : Entry} (habsent : table.get key = none) (hfull : maxTracked ≤ table.size)
    (holdest : oldest visits (retain table now window) = some k) (he : table.get k = some e) :
    entryWait ((failIn visits window fail table key now).get k) now = 0 := by
  have hk : k ≠ key := by
    rintro rfl
    rw [habsent] at he
    cases he
  cases hget : (failIn visits window fail table key now).get k with
  | none => rfl
  | some e' => exact absurd ⟨habsent, hfull, .inr holdest⟩ ((get_failIn hk).mp hget).2

/-- A flood of other keys lifts a block: once the table is full of rows of the last window, one new key evicts the oldest
of them, whether it blocks or not. -/
theorem flood_lifts {visits : Visits String Entry} {table : Table String Entry} {key k : String} {now window : Nat}
    {fail : Nat → Entry → Entry} {e : Entry} (habsent : table.get key = none) (hfull : maxTracked ≤ table.size)
    (hwindow : ∀ k' e', table.get k' = some e' → now - e'.since < window) (he : table.get k = some e)
    (holder : ∀ k' e', table.get k' = some e' → k' ≠ k → e.since < e'.since) :
    entryWait ((failIn visits window fail table key now).get k) now = 0 := by
  have hretain : retain table now window = table := by
    have hrows : (retain table now window).rows = table.rows := List.filter_eq_self.mpr fun r hr => by
      simp [hwindow r.1 r.2 (Table.get_eq_some.mpr hr)]
    obtain ⟨rows, unique⟩ := table
    exact (Table.mk.injEq _ _ _ _).mpr hrows
  refine evicted_wait habsent hfull ?_ he
  rw [hretain, oldest, if_pos hfull]
  exact Table.least_of_lt he holder

private theorem exists_blocked {e : Entry} {now : Nat} (h : e.blocked now ≠ false) : ∃ stop, e.blockedUntil = some stop ∧ now < stop := by
  rw [Entry.blocked] at h
  cases hstop : e.blockedUntil with
  | none =>
    rw [hstop] at h
    exact absurd rfl h
  | some stop =>
    rw [hstop, Option.any_some] at h
    exact ⟨stop, rfl, of_decide_eq_true (Bool.of_not_eq_false h)⟩

/-- Where every block is kept, no call lifts one. -/
theorem spares_of_steadfast (hsorted : Sorted (past ++ [m])) (h : Steadfast (past ++ [m])) : Spares (after past) m := by
  obtain ⟨hpast, hrun⟩ := hsorted.append
  have hrun : ∀ p ∈ past, p.now ≤ m.now := fun p hp => hrun p hp m (by simp)
  have hsound := after_sound hpast
  obtain ⟨call, now, emailVisits, sourceVisits⟩ := m
  cases call with
  | check email source => trivial
  | recordSuccess email => trivial
  | recordFailure email source =>
    refine ⟨fun habsent hfull k e holdest he => ?_, fun e stop he hfifth hwindow hstop => ?_, fun s hs habsent hfull k e holdest he => ?_⟩
    · by_contra hblocked
      obtain ⟨stop, hstop, hlt⟩ := exists_blocked hblocked
      obtain ⟨email', rfl⟩ := hsound.keys k e he
      refine not_steadfast (.email email') hrun (by simp [Made.forgives]) (blockEnd_eq_some.mpr ⟨e, he, hstop⟩) hlt ⟨now, le_rfl, hlt, ?_⟩ h
      rw [after_append]
      exact evicted_wait habsent hfull holdest he
    · by_contra hlong
      rw [not_le] at hlong
      have hnow : now < stop := (Nat.le_add_right _ _).trans_lt hlong
      refine not_steadfast (.email email) hrun (by simp [Made.forgives]) (blockEnd_eq_some.mpr ⟨e, he, hstop⟩) hnow
        ⟨now + seconds 1, Nat.le_add_right _ _, hlong, ?_⟩ h
      have hrow : (step (after past) ⟨.recordFailure email source, now, emailVisits, sourceVisits⟩).emails.get (normalizeEmail email) =
          some (failEmail now e) := by
        change (failIn _ _ _ _ _ _).get _ = _
        rw [get_failIn_key, he]
        rfl
      have hcount : saturatingAdd e.failures 1 = emailFreeFailures := by
        rw [saturatingAdd, hfifth]
        rfl
      rw [after_append]
      change entryWait (Table.get _ _) _ = 0
      have hdelay : delay emailFreeFailures = seconds 1 := by decide
      have hkept : (failEmail now e).blockedUntil = some (now + delay emailFreeFailures) := by
        rw [failEmail_counted hwindow, hcount]
        change (if emailFreeFailures ≤ emailFreeFailures then some (now + delay emailFreeFailures) else e.blockedUntil) = _
        rw [if_pos le_rfl]
      rw [hrow]
      exact entryWait_over hkept (Nat.add_le_add_left hdelay.le _)
    · by_contra hblocked
      obtain ⟨stop, hstop, hlt⟩ := exists_blocked hblocked
      refine not_steadfast (.source k) hrun id (blockEnd_eq_some.mpr ⟨e, he, hstop⟩) hlt ⟨now, le_rfl, hlt, ?_⟩ h
      rw [after_append]
      cases hs
      exact evicted_wait habsent hfull holdest he

/-- Every state of a run is as claimed exactly when none of its calls lifts a block: by evicting a row that still blocks, or
by the fifth failure of an email's new window under a longer block of the old one. -/
theorem throttled_iff (hsorted : Sorted run) : (∀ past later, run = past ++ later → Throttled past) ↔
    ∀ past m later, run = past ++ m :: later → Spares (after past) m := by
  constructor
  · rintro h past m later rfl
    rw [List.append_cons] at hsorted
    exact spares_of_steadfast hsorted.append.1 (h (past ++ [m]) later (by simp)).steadfast
  · rintro h past later rfl
    have hpast := hsorted.append.1
    have hsound := after_sound hpast
    refine ⟨hsound.emails, hsound.sources, fun email now w _ hw => ?_,
      steadfast_of_spares hpast fun before m rest heq => h before m (rest ++ later) (by simp [heq])⟩
    obtain ⟨hne, heq⟩ := check_error_iff.mp hw
    rw [Option.map_none, Option.getD_none, Nat.max_zero] at heq
    obtain ⟨stop, hstop, hlt⟩ := wait_pos.mp (heq ▸ Nat.pos_of_ne_zero hne)
    obtain ⟨e, he, hblocked⟩ := blockEnd_eq_some.mp hstop
    obtain ⟨last, hlast, hle⟩ := hsound.failed _ e stop he hblocked
    rw [(wait_eq hlt).mpr hstop] at heq
    exact ⟨last, hlast, by omega⟩

/-- A failure of the one email, so many seconds in. -/
private def failure (n : Nat) : Made := ⟨.recordFailure "a" none, seconds n, .asStored, .asStored⟩

theorem failure_throttled : Throttled [failure 0] := by
  refine (@throttled_iff [failure 0] (by decide)).mpr (fun past m later heq => ?_) [failure 0] [] rfl
  cases past with
  | nil =>
    cases heq
    refine ⟨?_, ?_, fun s hs => by cases hs⟩
    · rintro - hfull
      exact absurd hfull (by decide)
    · intro e stop he
      cases he
  | cons p past => simp at heq

theorem newWindow_lifts : ¬ ∀ run, Sorted run → Throttled run := by
  intro h
  let past := failure 0 :: List.replicate 7 (failure 899)
  let later := List.replicate 5 (failure 900)
  have hthrottled := h (past ++ later) (by decide +kernel)
  have hwait : wait (after past) (.email "a") (seconds 899) = seconds 907 - seconds 899 := by decide +kernel
  have hlifted : wait (after (past ++ later)) (.email "a") (seconds 902) = 0 := by decide +kernel
  have hforgives : ∀ m ∈ later, ¬ m.forgives (.email "a") := by simp [later, failure, Made.forgives]
  have hpos := (hthrottled.steadfast past later (.email "a") (seconds 899) (seconds 907) rfl (by decide +kernel) (by decide +kernel)
    (by decide) hwait hforgives (seconds 902) (by decide) (by decide +kernel) (by decide)).1
  exact absurd hlifted hpos.ne'

end spares
end Hoglet.Control.Throttle
