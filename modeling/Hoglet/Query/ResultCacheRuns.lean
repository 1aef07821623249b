import Hoglet.Query.ResultCache

/-! Runs of the result cache: its bytes and its bounds after every call, what a `get` answers, and who is evicted. -/
namespace Hoglet.ResultCache
variable {κ V : Type} [DecidableEq κ] {limits : Limits} {s : CacheState κ V} {m : Made κ V} {run past : List (Made κ V)}

/-! One call. -/
section call
variable {key k : κ} {value : V} {bytes now : Nat} {ttl expires : Option Nat} {visits : Visits κ (CacheEntry V)}

theorem Accounted.insert (hs : s.Accounted) (hkey : s.entries.get key = none) (hroom : s.responseBytes + bytes < usizeEnd) :
    (s.insert key value bytes expires).Accounted := by
  have hweight := Table.weight_put (w := CacheEntry.bytes) (r := ⟨value, bytes, s.accessClock, expires⟩) hkey
  have hbytes : (s.insert key value bytes expires).responseBytes = s.responseBytes + bytes := Nat.mod_eq_of_lt hroom
  rw [CacheState.Accounted, hbytes, hs]
  exact hweight.symm

variable (key value bytes ttl now visits) in
/-- A `put` only takes the old entry out, or puts the new one in and evicts. -/
theorem put_cases (hs : s.Accounted) (hwithin : s.Within limits) (hlimits : limits.maxBytes < 2^63) :
    ((limits.maxEntries = 0 ∨ limits.maxBytes < bytes ∨ deadline now ttl = none) ∧
      (put limits visits s key value bytes ttl now = (s.remove key, []) ∨
        put limits visits s key value bytes ttl now = ((s.remove key).tick, []))) ∨
    ∃ expires, limits.maxEntries ≠ 0 ∧ bytes ≤ limits.maxBytes ∧ deadline now ttl = some expires ∧
      ((s.remove key).tick.insert key value bytes expires).Accounted ∧
      Evicts limits ((s.remove key).tick.insert key value bytes expires) (put limits visits s key value bytes ttl now).1
        (put limits visits s key value bytes ttl now).2 := by
  by_cases hrefused : limits.maxEntries = 0 ∨ limits.maxBytes < bytes
  · refine .inl ⟨?_, .inl (by rw [put]; exact if_pos hrefused)⟩
    rcases hrefused with h | h
    · exact .inl h
    · exact .inr (.inl h)
  · cases hdeadline : deadline now ttl with
    | none =>
      refine .inl ⟨.inr (.inr rfl), .inr ?_⟩
      rw [put, hdeadline]
      exact if_neg hrefused
    | some expires =>
      rw [not_or, not_lt] at hrefused
      have hput : put limits visits s key value bytes ttl now = evict limits visits
          ((s.remove key).tick.insert key value bytes expires).entries.size ((s.remove key).tick.insert key value bytes expires) := by
        rw [put, hdeadline]
        exact if_neg (not_or.mpr ⟨hrefused.1, not_lt.mpr hrefused.2⟩)
      have hroom : (s.remove key).responseBytes + bytes < usizeEnd := by
        have hremoved : (s.remove key).Within limits := Within.remove hwithin
        have hheld := hremoved.bytes
        rw [usizeEnd]
        omega
      have hinsert : ((s.remove key).tick.insert key value bytes expires).Accounted :=
        Accounted.insert (s := (s.remove key).tick) (Accounted.remove hs) (by simp) hroom
      refine .inr ⟨expires, hrefused.1, hrefused.2, rfl, hinsert, ?_⟩
      rw [hput]
      exact evict_evicts hinsert le_rfl

/-- The bytes stay accounted for and the cache within its limits. -/
theorem step_bounded (hlimits : limits.maxBytes < 2^63) (hs : s.Accounted) (hwithin : s.Within limits) (m : Made κ V) :
    (step limits s m).Accounted ∧ (step limits s m).Within limits := by
  rw [step]
  cases m.call with
  | get key =>
    dsimp only
    rw [get]
    split
    · exact ⟨Accounted.remove (s := s.tick) hs, Within.remove (s := s.tick) ⟨hwithin.entries, hwithin.bytes⟩⟩
    · exact ⟨Accounted.touch (s := s.tick) hs, Within.touch (s := s.tick) ⟨hwithin.entries, hwithin.bytes⟩⟩
  | put key value bytes ttl =>
    have hremoved : (s.remove key).Within limits := Within.remove hwithin
    rcases put_cases key value bytes m.now ttl m.visits hs hwithin hlimits with ⟨-, hput | hput⟩ | ⟨expires, -, -, -, hinsert, hevicts⟩
    · dsimp only
      rw [hput]
      exact ⟨Accounted.remove hs, hremoved⟩
    · dsimp only
      rw [hput]
      exact ⟨Accounted.remove hs, ⟨hremoved.entries, hremoved.bytes⟩⟩
    · exact ⟨hevicts.accounted hinsert, hevicts.within⟩
  | clear => exact ⟨rfl, ⟨Nat.zero_le _, Nat.zero_le _⟩⟩

/-- What a key holds, and until when. -/
def contents (s : CacheState κ V) (key : κ) : Option (V × Option Nat) := (s.entries.get key).map fun entry => (entry.value, entry.expires)

@[simp] theorem contents_remove : contents (s.remove k) key = if key = k then none else contents s key := by
  rw [contents, remove_entries_get]
  split <;> rfl

theorem contents_insert : contents (s.insert k value bytes expires) key = if key = k then some (value, expires) else contents s key := by
  have hget : (s.insert k value bytes expires).entries.get key =
      if key = k then some ⟨value, bytes, s.accessClock, expires⟩ else s.entries.get key := Table.get_put _ _ _ _
  rw [contents, hget]
  split <;> rfl

theorem Evicts.contents {r : CacheState κ V} {keys : List κ} (h : Evicts limits s r keys) (key : κ) :
    contents r key = if key ∈ keys then none else ResultCache.contents s key := by
  rw [ResultCache.contents, h.get]
  split <;> rfl

theorem get_contents : contents (get s k now).2 key = if k = key ∧ (contents s key).any (fun c => c.2.any (· ≤ now)) = true then none
    else contents s key := by
  have hany : (s.tick.entries.get k).any (fun entry => entry.expired now) = (contents s k).any fun c => c.2.any (· ≤ now) := by
    rw [contents, Option.any_map]
    rfl
  have htouch : contents (s.tick.touch k) key = contents s key := by
    rw [contents, touch_entries_get, Option.map_map]
    exact Option.map_congr fun entry _ => by
      rw [Function.comp_apply]
      split <;> rfl
  rw [get, hany]
  by_cases hexpired : (contents s k).any (fun c => c.2.any (· ≤ now)) = true
  · rw [if_pos hexpired]
    refine contents_remove.trans ?_
    by_cases hk : key = k
    · rw [if_pos hk, if_pos ⟨hk.symm, by rw [hk]; exact hexpired⟩]
    · rw [if_neg hk, if_neg fun h => hk h.1.symm]
      rfl
  · rw [if_neg hexpired, if_neg fun h => hexpired (by rw [h.1]; exact h.2)]
    exact htouch

variable (limits key value expires) in
/-- A `put` that is not refused, and does not evict its own entry. -/
def Stores (s : CacheState κ V) (m : Made κ V) : Prop := ∃ bytes ttl, m.call = .put key value bytes ttl ∧
  limits.maxEntries ≠ 0 ∧ bytes ≤ limits.maxBytes ∧ deadline m.now ttl = some expires ∧ key ∉ evicted limits s m

variable (limits key) in
/-- A call that neither puts the key nor clears the cache nor evicts the key. -/
def Spares (s : CacheState κ V) (m : Made κ V) : Prop :=
  (∀ value bytes ttl, m.call ≠ .put key value bytes ttl) ∧ m.call ≠ .clear ∧ key ∉ evicted limits s m

variable (key expires) in
/-- A call that does not find the key expired. -/
def InTime (m : Made κ V) : Prop := m.call = .get key → ∀ stop, expires = some stop → m.now < stop

private theorem step_contents_get : contents (step limits s ⟨.get k, now, visits⟩) key = some (value, expires) ↔
    Stores limits key value expires s ⟨.get k, now, visits⟩ ∨
      contents s key = some (value, expires) ∧ Spares limits key s ⟨.get k, now, visits⟩ ∧
        InTime key expires ⟨.get k, now, visits⟩ := by
  have hspares : Spares limits key s ⟨.get k, now, visits⟩ := ⟨by simp, by simp, by simp [evicted]⟩
  have hstores : ¬ Stores limits key value expires s ⟨.get k, now, visits⟩ := by simp [Stores]
  rw [or_iff_right hstores, step, get_contents, InTime]
  simp only [hspares, true_and, Call.get.injEq]
  by_cases hk : k = key
  · cases hc : contents s key with
    | none => simp
    | some c =>
      obtain ⟨value', expires'⟩ := c
      cases expires' with
      | none =>
        have hnever : none = expires → ∀ stop, expires = some stop → now < stop := by
          rintro rfl stop heq
          cases heq
        simpa [hk] using fun _ => hnever
      | some stop =>
        simp only [hk, Option.any_some, decide_eq_true_eq, true_and, true_implies]
        split
        · rename_i hle
          simp only [reduceCtorEq, false_iff, Option.some.injEq, Prod.mk.injEq, not_and, and_imp]
          rintro - rfl hlt
          exact absurd (hlt stop rfl) (Nat.not_lt.mpr hle)
        · rename_i hle
          simp only [Option.some.injEq, Prod.mk.injEq, iff_self_and, and_imp]
          rintro - rfl stop' heq
          cases heq
          exact Nat.lt_of_not_le hle
  · simp [hk]

private theorem step_contents_put {value' : V} (hlimits : limits.maxBytes < 2^63) (hs : s.Accounted) (hwithin : s.Within limits) :
    contents (step limits s ⟨.put k value' bytes ttl, now, visits⟩) key = some (value, expires) ↔
      Stores limits key value expires s ⟨.put k value' bytes ttl, now, visits⟩ ∨
        contents s key = some (value, expires) ∧ Spares limits key s ⟨.put k value' bytes ttl, now, visits⟩ ∧
          InTime key expires ⟨.put k value' bytes ttl, now, visits⟩ := by
  have hintime : InTime key expires ⟨.put k value' bytes ttl, now, visits⟩ := by simp [InTime]
  simp only [hintime, and_true, step]
  rcases put_cases k value' bytes now ttl visits hs hwithin hlimits with ⟨hrefused, hput⟩ | ⟨expires', hentries, hbytes, hdeadline, -, hevicts⟩
  · have hcontents : contents (put limits visits s k value' bytes ttl now).1 key = if key = k then none else contents s key := by
      rcases hput with hput | hput
      · rw [hput, contents_remove]
      · rw [hput]
        exact contents_remove
    have hevicted : evicted limits s ⟨.put k value' bytes ttl, now, visits⟩ = [] := by
      rcases hput with hput | hput
      · exact congrArg Prod.snd hput
      · exact congrArg Prod.snd hput
    have hstores : ¬ Stores limits key value expires s ⟨.put k value' bytes ttl, now, visits⟩ := by
      rintro ⟨bytes', ttl', hcall, hentries, hbytes, hdeadline, -⟩
      cases hcall
      rcases hrefused with h | h | h
      · exact hentries h
      · exact absurd hbytes (Nat.not_le.mpr h)
      · exact Option.some_ne_none _ (hdeadline.symm.trans h)
    rw [or_iff_right hstores, hcontents, Spares, hevicted]
    by_cases hk : key = k
    · simp [hk]
    · simp [hk, Ne.symm hk]
  · have hcontents : contents (put limits visits s k value' bytes ttl now).1 key =
        if key ∈ (put limits visits s k value' bytes ttl now).2 then none
        else if key = k then some (value', expires') else contents s key := by
      rw [hevicts.contents, contents_insert]
      split
      · rfl
      · split
        · rfl
        · rename_i hk
          exact contents_remove.trans (if_neg hk)
    rw [hcontents, Stores, Spares, evicted]
    by_cases hevicted : key ∈ (put limits visits s k value' bytes ttl now).2
    · simp [hevicted]
    · by_cases hk : key = k
      · subst hk
        simp only [hevicted, if_false, if_true, Option.some.injEq, Prod.mk.injEq, Call.put.injEq, not_false_eq_true, and_true,
          true_and]
        constructor
        · rintro ⟨rfl, rfl⟩
          exact .inl ⟨bytes, ttl, ⟨rfl, rfl, rfl⟩, hentries, hbytes, hdeadline⟩
        · rintro (⟨bytes', ttl', ⟨rfl, rfl, rfl⟩, -, -, heq⟩ | ⟨-, hput, -⟩)
          · rw [hdeadline] at heq
            exact ⟨rfl, Option.some.inj heq⟩
          · exact absurd rfl (hput value' bytes ttl)
      · simp [hevicted, hk, Ne.symm hk]

/-- A key holds what this call stores, or what it held before and the call leaves to it. -/
theorem step_contents (hlimits : limits.maxBytes < 2^63) (hs : s.Accounted) (hwithin : s.Within limits) :
    contents (step limits s m) key = some (value, expires) ↔ Stores limits key value expires s m ∨
      contents s key = some (value, expires) ∧ Spares limits key s m ∧ InTime key expires m := by
  obtain ⟨call, now, visits⟩ := m
  cases call with
  | get k => exact step_contents_get
  | put k value' bytes ttl => exact step_contents_put hlimits hs hwithin
  | clear =>
    have hnone : contents (step limits s ⟨.clear, now, visits⟩) key = none := rfl
    simp [hnone, Stores, Spares]

end call
/-! Runs. -/
section runs
variable {key : κ} {value : V} {expires : Option Nat}

theorem after_append : after limits (run ++ [m]) = step limits (after limits run) m := List.foldl_append

theorem after_bounded (hlimits : limits.maxBytes < 2^63) (run : List (Made κ V)) :
    (after limits run).Accounted ∧ (after limits run).Within limits := by
  induction run using List.reverseRecOn with
  | nil => exact ⟨rfl, ⟨Nat.zero_le _, Nat.zero_le _⟩⟩
  | append_singleton run m ih =>
    rw [after_append]
    exact step_bounded hlimits ih.1 ih.2 m

/-- A key holds what the last `put` that was not refused stored, if nothing has taken it out since. -/
theorem after_contents (hlimits : limits.maxBytes < 2^63) (run : List (Made κ V)) :
    contents (after limits run) key = some (value, expires) ↔
      Since (fun past m => Stores limits key value expires (after limits past) m)
        (fun past m => Spares limits key (after limits past) m ∧ InTime key expires m) run := by
  induction run using List.reverseRecOn with
  | nil => exact iff_of_false (by simp [after, contents, CacheState.empty]) not_since_nil
  | append_singleton run m ih =>
    obtain ⟨hs, hwithin⟩ := after_bounded hlimits run
    rw [since_append, ← ih, after_append]
    exact step_contents hlimits hs hwithin

variable (limits key value) in
/-- The latest `put` of the key was not refused, its entry is not evicted since, nor the cache cleared, nor is the
lifetime of the entry over. -/
def Held (now : Nat) (run : List (Made κ V)) : Prop := ∃ expires, (∀ stop, expires = some stop → now < stop) ∧
  Since (fun past m => Stores limits key value expires (after limits past) m) (fun past m => Spares limits key (after limits past) m) run

theorem get_value {s : CacheState κ V} {now : Nat} :
    (get s key now).1 = some value ↔ ∃ expires, contents s key = some (value, expires) ∧ ∀ stop, expires = some stop → now < stop := by
  have hany : (s.tick.entries.get key).any (fun entry => entry.expired now) = (contents s key).any fun c => c.2.any (· ≤ now) := by
    rw [contents, Option.any_map]
    rfl
  have hvalue : (s.tick.entries.get key).map CacheEntry.value = (contents s key).map Prod.fst := by
    rw [contents, Option.map_map]
    rfl
  rw [get, hany, hvalue]
  cases contents s key with
  | none => simp
  | some c =>
    obtain ⟨value', expires⟩ := c
    cases expires with
    | none => simp
    | some stop =>
      by_cases hle : stop ≤ now
      · simp [hle]
      · simp [hle, Nat.lt_of_not_le hle]

/-- A `get` at a time that no call is ahead of. -/
theorem get_iff (hlimits : limits.maxBytes < 2^63) {now : Nat} (hnow : ∀ m ∈ run, m.now ≤ now) :
    (get (after limits run) key now).1 = some value ↔ Held limits key value now run := by
  rw [get_value]
  constructor
  · rintro ⟨expires, hcontents, hstop⟩
    exact ⟨expires, hstop, ((after_contents hlimits run).mp hcontents).imp (fun _ _ _ h => h) fun _ _ _ h => h.1⟩
  · rintro ⟨expires, hstop, hsince⟩
    refine ⟨expires, (after_contents hlimits run).mpr (hsince.imp (fun _ _ _ h => h) fun _ m hm h => ⟨h, ?_⟩), hstop⟩
    exact fun _ stop heq => (hnow m hm).trans_lt (hstop stop heq)

end runs
/-! Who is evicted: as long as the access clock can count, the entry whose last use is the oldest. -/
section recency
variable {key k : κ}

def Call.names (key : κ) : Call κ V → Prop
  | .get k => k = key
  | .put k _ _ _ => k = key
  | .clear => False

/-- The calls that may move the access clock. -/
def Call.ticks : Call κ V → Bool
  | .clear => false
  | _ => true

def ticks (run : List (Made κ V)) : Nat := run.countP fun m => m.call.ticks

/-- The last `get` or `put` of the one key is more recent than that of the other. -/
def UsedSince (run : List (Made κ V)) (recent old : κ) : Prop :=
  Since (fun _ m => m.call.names recent) (fun _ m => ¬ m.call.names old) run

variable (limits) in
/-- A call evicts in the order of last use, and what it leaves was used after all that it evicts. -/
def EvictsOldest (past : List (Made κ V)) (m : Made κ V) : Prop :=
  (evicted limits (after limits past) m).Pairwise (fun old recent => UsedSince (past ++ [m]) recent old) ∧
    ∀ old ∈ evicted limits (after limits past) m, ∀ k entry, (after limits (past ++ [m])).entries.get k = some entry →
      UsedSince (past ++ [m]) k old

/-- Access times follow the order of last use. -/
structure Ordered (run : List (Made κ V)) (s : CacheState κ V) : Prop where
  clock : s.accessClock ≤ ticks run
  last : ∀ k entry, s.entries.get k = some entry → entry.lastAccess ≤ s.accessClock
  recent : ∀ a b ea eb, s.entries.get a = some ea → s.entries.get b = some eb → a ≠ b → ea.lastAccess ≤ eb.lastAccess → UsedSince run b a

omit [DecidableEq κ] in
theorem ticks_append : ticks (run ++ [m]) = ticks run + if m.call.ticks then 1 else 0 := by
  rw [ticks, List.countP_append, List.countP_singleton]
  rfl

/-- What a call that names one key does to the entries before anything is evicted. -/
structure Uses (key : κ) (s s' : CacheState κ V) : Prop where
  clock : s'.accessClock = s.accessClock ∨ s'.accessClock = s.tick.accessClock
  others : ∀ k, k ≠ key → s'.entries.get k = s.entries.get k
  own : ∀ entry, s'.entries.get key = some entry → entry.lastAccess = s.tick.accessClock ∧ s'.accessClock = s.tick.accessClock

theorem Ordered.uses {s' : CacheState κ V} (h : Ordered run s) (huses : Uses key s s') (hnames : ∀ k, m.call.names k ↔ k = key)
    (hticks : m.call.ticks = true) (hcount : ticks (run ++ [m]) < 2^64) : Ordered (run ++ [m]) s' := by
  have hclock := h.clock
  rw [ticks_append, if_pos hticks] at hcount
  have htick : s.tick.accessClock = s.accessClock + 1 := Nat.min_eq_left (by rw [u64Max]; omega)
  have hle : s.accessClock ≤ s'.accessClock := by
    rcases huses.clock with heq | heq
    · exact heq.ge
    · omega
  refine ⟨?_, fun k entry hentry => ?_, fun a b ea eb ha hb hne hlast => ?_⟩
  · rw [ticks_append, if_pos hticks]
    rcases huses.clock with heq | heq
    · omega
    · omega
  · by_cases hk : k = key
    · subst hk
      obtain ⟨hlast, hnow⟩ := huses.own entry hentry
      exact (hlast.trans hnow.symm).le
    · rw [huses.others k hk] at hentry
      exact (h.last k entry hentry).trans hle
  · rw [UsedSince, since_append, hnames, hnames]
    by_cases hbkey : b = key
    · exact .inl hbkey
    · rw [huses.others b hbkey] at hb
      by_cases hakey : a = key
      · subst hakey
        have hlate := (huses.own ea ha).1
        have hearly := h.last b eb hb
        omega
      · rw [huses.others a hakey] at ha
        exact .inr ⟨h.recent a b ea eb ha hb hne hlast, hakey⟩

theorem Ordered.remove (h : Ordered run s) : Ordered run (s.remove key) := by
  have hget : ∀ {k entry}, (s.remove key).entries.get k = some entry → s.entries.get k = some entry := fun {k entry} hentry => by
    rw [remove_entries_get] at hentry
    split at hentry
    · cases hentry
    · exact hentry
  refine ⟨remove_accessClock.trans_le h.clock, fun k entry hentry => ?_, fun a b ea eb ha hb => h.recent a b ea eb (hget ha) (hget hb)⟩
  exact (h.last k entry (hget hentry)).trans_eq remove_accessClock.symm

theorem Ordered.evicts {r : CacheState κ V} {keys : List κ} (hevicts : Evicts limits s r keys) (h : Ordered run s) :
    Ordered run r ∧ keys.Pairwise (fun old recent => UsedSince run recent old) ∧
      ∀ old ∈ keys, ∀ k entry, r.entries.get k = some entry → UsedSince run k old := by
  induction hevicts with
  | done _ => exact ⟨h, .nil, fun old hold => absurd hold List.not_mem_nil⟩
  | @turn s r oldest entry keys hentry hleast hrest ih =>
    obtain ⟨hr, hpairwise, hleft⟩ := ih h.remove
    -- what is in the cache besides the oldest entry was used after it
    have hused : ∀ k other, (s.remove oldest).entries.get k = some other → UsedSince run k oldest := fun k other hother => by
      rw [remove_entries_get] at hother
      split at hother
      · cases hother
      · rename_i hne
        exact h.recent oldest k entry other hentry hother (Ne.symm hne) (hleast k other hother)
    refine ⟨hr, List.pairwise_cons.mpr ⟨fun k hk => ?_, hpairwise⟩, fun old hold k other hother => ?_⟩
    · obtain ⟨other, hother⟩ := hrest.mem k hk
      exact hused k other hother
    · rcases List.mem_cons.mp hold with rfl | hold
      · rw [hrest.get] at hother
        split at hother
        · cases hother
        · exact hused k other hother
      · exact hleft old hold k other hother

theorem get_uses (now : Nat) : Uses key s (get s key now).2 := by
  rw [get]
  split
  · refine ⟨.inr remove_accessClock, fun k hk => remove_entries_get.trans (if_neg hk), fun entry hentry => ?_⟩
    rw [remove_entries_get, if_pos rfl] at hentry
    cases hentry
  · refine ⟨.inr rfl, fun k hk => ?_, fun entry hentry => ?_⟩
    · rw [touch_entries_get]
      simp [hk]
    · rw [touch_entries_get, Option.map_eq_some_iff] at hentry
      obtain ⟨before, -, rfl⟩ := hentry
      rw [if_pos rfl]
      exact ⟨rfl, rfl⟩

private theorem tick_remove : (s.remove key).tick.accessClock = s.tick.accessClock := by
  rw [CacheState.tick, remove_accessClock]
  rfl

theorem remove_uses : Uses key s (s.remove key) ∧ Uses key s (s.remove key).tick := by
  have hothers : ∀ k, k ≠ key → (s.remove key).entries.get k = s.entries.get k := fun k hk => remove_entries_get.trans (if_neg hk)
  have hown : (s.remove key).entries.get key = none := remove_entries_get.trans (if_pos rfl)
  exact ⟨⟨.inl remove_accessClock, hothers, fun entry hentry => by rw [hown] at hentry; cases hentry⟩,
    ⟨.inr tick_remove, hothers, fun entry hentry => by rw [tick_entries, hown] at hentry; cases hentry⟩⟩

theorem insert_uses {value : V} {bytes : Nat} {expires : Option Nat} :
    Uses key s ((s.remove key).tick.insert key value bytes expires) := by
  have hget : ∀ k, ((s.remove key).tick.insert key value bytes expires).entries.get k =
      if k = key then some ⟨value, bytes, (s.remove key).tick.accessClock, expires⟩ else (s.remove key).entries.get k :=
    fun k => Table.get_put _ _ _ _
  refine ⟨.inr tick_remove, fun k hk => ?_, fun entry hentry => ?_⟩
  · rw [hget, if_neg hk, remove_entries_get, if_neg hk]
  · rw [hget, if_pos rfl] at hentry
    cases hentry
    exact ⟨tick_remove, tick_remove⟩

/-- One call keeps the order and evicts by it. -/
theorem step_ordered (hlimits : limits.maxBytes < 2^63) (hs : s.Accounted) (hwithin : s.Within limits) (h : Ordered run s)
    (hcount : ticks (run ++ [m]) < 2^64) : Ordered (run ++ [m]) (step limits s m) ∧
      (evicted limits s m).Pairwise (fun old recent => UsedSince (run ++ [m]) recent old) ∧
      ∀ old ∈ evicted limits s m, ∀ k entry, (step limits s m).entries.get k = some entry → UsedSince (run ++ [m]) k old := by
  obtain ⟨call, now, visits⟩ := m
  cases call with
  | get key =>
    have hnames : ∀ k, (Call.get key : Call κ V).names k ↔ k = key := fun k => eq_comm
    have hordered := h.uses (get_uses now) hnames rfl hcount
    exact ⟨hordered, .nil, fun old hold => absurd hold List.not_mem_nil⟩
  | put key value bytes ttl =>
    have hnames : ∀ k, (Call.put key value bytes ttl).names k ↔ k = key := fun k => eq_comm
    rw [step, evicted]
    dsimp only
    rcases put_cases key value bytes now ttl visits hs hwithin hlimits with ⟨-, hput | hput⟩ | ⟨expires, -, -, -, -, hevicts⟩
    · rw [hput]
      exact ⟨h.uses remove_uses.1 hnames rfl hcount, .nil, fun old hold => absurd hold List.not_mem_nil⟩
    · rw [hput]
      exact ⟨h.uses remove_uses.2 hnames rfl hcount, .nil, fun old hold => absurd hold List.not_mem_nil⟩
    · exact Ordered.evicts hevicts (h.uses insert_uses hnames rfl hcount)
  | clear =>
    have hclear : Ordered (run ++ [⟨.clear, now, visits⟩]) (clear s) := by
      refine ⟨h.clock.trans (by rw [ticks_append]; exact Nat.le_add_right _ _), fun k entry hentry => ?_, fun a b ea eb ha => ?_⟩
      · cases hentry
      · cases ha
    exact ⟨hclear, .nil, fun old hold => absurd hold List.not_mem_nil⟩

theorem after_ordered (hlimits : limits.maxBytes < 2^63) (hcount : ticks run < 2^64) : Ordered run (after limits run) := by
  induction run using List.reverseRecOn with
  | nil =>
    have hnone : ∀ k, (after limits ([] : List (Made κ V))).entries.get k = none := fun k => rfl
    refine ⟨le_rfl, fun k entry hentry => ?_, fun a b ea eb ha => ?_⟩
    · rw [hnone] at hentry
      cases hentry
    · rw [hnone] at ha
      cases ha
  | append_singleton run m ih =>
    obtain ⟨hs, hwithin⟩ := after_bounded hlimits run
    rw [after_append]
    exact (step_ordered hlimits hs hwithin (ih ((by rw [ticks_append]; exact Nat.le_add_right _ _ : _ ≤ _).trans_lt hcount)) hcount).1

theorem after_evictsOldest (hlimits : limits.maxBytes < 2^63) (hcount : ticks (past ++ [m]) < 2^64) : EvictsOldest limits past m := by
  obtain ⟨hs, hwithin⟩ := after_bounded hlimits past
  have hpast : ticks past < 2^64 := by
    rw [ticks_append] at hcount
    omega
  rw [EvictsOldest, after_append]
  exact (step_ordered hlimits hs hwithin (after_ordered hlimits hpast) hcount).2

end recency
/-- The bytes are those of the entries, the limits hold, a `get` answers the latest `put` that is still there, and the
least recently used entry is evicted as long as fewer calls than the access clock can count have moved it. -/
theorem cache_correct (hlimits : limits.maxBytes < 2^63) (run : List (Made κ V)) :
    (after limits run).responseBytes = (after limits run).entries.weight CacheEntry.bytes ∧
      (after limits run).entries.size ≤ limits.maxEntries ∧ (after limits run).responseBytes ≤ limits.maxBytes ∧
      (∀ key now, (∀ m ∈ run, m.now ≤ now) → ∀ value, (get (after limits run) key now).1 = some value ↔ Held limits key value now run) ∧
      ∀ past m later, run = past ++ m :: later → ticks (past ++ [m]) < 2^64 → EvictsOldest limits past m := by
  obtain ⟨hs, hwithin⟩ := after_bounded hlimits run
  exact ⟨hs, hwithin.entries, hwithin.bytes, fun key now hnow value => get_iff hlimits hnow,
    fun past m later _ hcount => after_evictsOldest hlimits hcount⟩

theorem second_correct : Held (.new 1) "b" 8 3 [⟨.put "a" 7 3 (some 5), 0, .asStored⟩, ⟨.put "b" 8 3 none, 2, .backwards⟩] ∧
    EvictsOldest (.new 1) [⟨.put "a" 7 3 (some 5), 0, .asStored⟩] ⟨.put "b" 8 3 none, 2, .backwards⟩ := by
  obtain ⟨-, -, -, hget, hevicts⟩ := @cache_correct String Nat _ (.new 1) (by decide)
    [⟨.put "a" 7 3 (some 5), 0, .asStored⟩, ⟨.put "b" 8 3 none, 2, .backwards⟩]
  exact ⟨(hget "b" 3 (by decide) 8).mp rfl, hevicts _ _ [] rfl (by decide)⟩

/-! Once the access clock is full, all uses look alike. -/
section full

/-- The one entry of a cache, and the clock at its last use. -/
private def one (n : Nat) : CacheState String Nat := ⟨⟨[("a", ⟨7, 3, n, none⟩)], by simp⟩, 3, n⟩

private def getA : Made String Nat := ⟨.get "a", 0, .asStored⟩

private theorem step_one {n : Nat} (h : n < u64Max) : step (.new 1) (one n) getA = one (n + 1) := by
  have htick : (one n).tick = { one n with accessClock := n + 1 } := by
    rw [CacheState.tick]
    exact congrArg _ (Nat.min_eq_left h)
  change (get (one n) "a" 0).2 = _
  rw [get, htick]
  rfl

private theorem after_one {n : Nat} (h : n < u64Max) :
    after (.new 1) (⟨.put "a" 7 3 none, 0, .asStored⟩ :: List.replicate n getA) = one (n + 1) := by
  induction n with
  | zero => rfl
  | succ n ih =>
    rw [List.replicate_succ', ← List.cons_append, after_append, ih (Nat.lt_of_succ_lt h)]
    exact step_one h

theorem full_evicts_newest : ¬ ∀ run : List (Made String Nat), run.Pairwise (·.now ≤ ·.now) →
    ∀ past m later, run = past ++ m :: later → EvictsOldest (.new 1) past m := by
  intro h
  let past : List (Made String Nat) := ⟨.put "a" 7 3 none, 0, .asStored⟩ :: List.replicate (u64Max - 1) getA
  let last : Made String Nat := ⟨.put "b" 8 3 none, 0, .backwards⟩
  have hsorted : (past ++ [last]).Pairwise (·.now ≤ ·.now) := by
    have hnow : ∀ m ∈ past ++ [last], m.now = 0 := by
      intro m hm
      rcases List.mem_append.mp hm with hm | hm
      · rcases List.mem_cons.mp hm with rfl | hm
        · rfl
        · rw [List.eq_of_mem_replicate hm]
          rfl
      · rw [List.mem_singleton.mp hm]
    exact List.pairwise_of_forall_mem_list fun a ha b hb => (hnow a ha).le.trans (Nat.zero_le _)
  have hone : after (.new 1) past = one u64Max := after_one (by decide)
  obtain ⟨-, hafter⟩ := h _ hsorted past last [] rfl
  have hused := hafter "b" (by rw [hone]; decide) "a" ⟨7, 3, u64Max, none⟩ (by rw [after_append, hone]; rfl)
  rcases since_append.mp hused with hnames | ⟨-, hnames⟩
  · exact absurd (show "b" = "a" from hnames) (by decide)
  · exact hnames rfl

end full
end Hoglet.ResultCache
