import Hoglet.Capture.RateLimit
import Hoglet.Json.Object

/-! What capture requests of one second are charged for. -/
namespace Hoglet.RateLimit
open Json

/-- What parsing made of a body: the tokens of its events, if it has events. -/
inductive Parsed where
  | malformed | unauthorized
  | events (tokens : List String)

inductive SinkAnswer where
  | ok | retryable | fatal
  deriving DecidableEq

structure Request where
  parsed : Parsed
  /-- The authorizer's decision on each token. -/
  authorized : String → Bool
  sink : SinkAnswer

inductive Answer where
  | accepted | badRequest | unauthorized | tooManyRequests | serviceUnavailable
  deriving DecidableEq, Repr

def countUp (count : UInt32) : UInt32 := if count.toNat = u32Max then count else count + 1

/-- The tokens of the events in their order, each with its number of events. -/
def tokenCounts (tokens : List String) : List (String × UInt32) :=
  tokens.foldl (fun counts token => insertKey token (countUp ((getKey counts token).getD 0)) counts) []

section capture
variable (max : UInt32) (now : Int)

/-- Rate limit each token; the first one over its budget ends it. -/
def charge : List (String × UInt32) → Window → Bool × Window
  | [], w => (true, w)
  | (token, count) :: rest, w =>
    match allow max w token count now with
    | (true, w) => charge rest w
    | (false, w) => (false, w)

def capture (w : Window) (r : Request) : Answer × Window :=
  match r.parsed with
  | .malformed => (.badRequest, w)
  | .unauthorized => (.unauthorized, w)
  | .events tokens =>
    if tokens = [] then (.accepted, w)
    else if (tokenCounts tokens).any fun c => !r.authorized c.1 then (.unauthorized, w)
    else
      match charge max now (tokenCounts tokens) w with
      | (false, w) => (.tooManyRequests, w)
      | (true, w) =>
        match r.sink with
        | .ok => (.accepted, w)
        | .retryable => (.serviceUnavailable, w)
        | .fatal => (.badRequest, w)

/-- What a token may still send in the second. -/
def remaining (w : Window) (token : String) : Nat := max.toNat - (w.moved now).count token

/-- Whether a call for so many events is refused; the counter stops at the largest number there is. -/
def exceeds (budget : Nat) (count : UInt32) : Prop := max.toNat < u32Max ∧ budget < count.toNat

instance (budget : Nat) (count : UInt32) : Decidable (exceeds max budget count) := inferInstanceAs (Decidable (_ ∧ _))

end capture

/-! The tokens of a request. -/
section counts

theorem sorted_tokenCounts (tokens : List String) : Sorted (tokenCounts tokens) := by
  induction tokens using List.reverseRecOn with
  | nil => exact .nil
  | append_singleton tokens token ih =>
    rw [tokenCounts, List.foldl_append]
    exact sorted_insertKey ih

theorem nodup_tokenCounts (tokens : List String) : ((tokenCounts tokens).map Prod.fst).Nodup :=
  List.Pairwise.imp (fun h => h.ne) (sorted_tokenCounts tokens)

theorem countUp_pos (count : UInt32) : 0 < (countUp count).toNat := by
  rw [countUp]
  split
  · rename_i h
    rw [h]
    decide
  · rename_i h
    have hlt := count.toNat_lt
    rw [UInt32.toNat_add, Nat.mod_eq_of_lt]
    · exact Nat.succ_pos _
    · have hmax : u32Max = 2^32 - 1 := rfl
      change count.toNat + 1 < 2^32
      omega

theorem tokenCounts_pos {tokens : List String} : ∀ c ∈ tokenCounts tokens, 0 < c.2.toNat := by
  induction tokens using List.reverseRecOn with
  | nil => exact fun c hc => absurd hc List.not_mem_nil
  | append_singleton tokens token ih =>
    intro c hc
    rw [tokenCounts, List.foldl_append] at hc
    rcases mem_insertKey hc with rfl | hc
    · exact countUp_pos _
    · exact ih c hc

theorem tokenCounts_ne_nil {tokens : List String} (h : tokens ≠ []) : tokenCounts tokens ≠ [] := by
  induction tokens using List.reverseRecOn with
  | nil => exact absurd rfl h
  | append_singleton tokens token ih =>
    rw [tokenCounts, List.foldl_append, List.foldl_cons, List.foldl_nil]
    generalize tokens.foldl _ _ = counts
    cases counts with
    | nil => exact List.cons_ne_nil _ _
    | cons c counts =>
      rw [insertKey]
      split
      · exact List.cons_ne_nil _ _
      split
      · exact List.cons_ne_nil _ _
      · exact List.cons_ne_nil _ _

end counts

/-! One request's charges. -/
section charge
variable {max : UInt32} {now : Int} {w : Window}

theorem length_put (t : Table String Nat) (k : String) (r : Nat) :
    (t.put k r).rows.length = if (t.get k).isNone then t.rows.length + 1 else t.rows.length := by
  rw [Table.put, Table.upsert]
  cases hget : t.get k with
  | none =>
    obtain ⟨t', ht⟩ := Table.insert_isSome r hget
    rw [ht, Option.getD_some, (Table.insert_eq_some ht).2, List.length_append]
    rfl
  | some old =>
    have hinsert : t.insert k r = none := dif_neg (by simp [hget])
    rw [hinsert]
    simp [Table.update]

/-- The tokens that the window does not track yet. -/
def newTokens (w : Window) (counts : List (String × UInt32)) : List (String × UInt32) := counts.filter fun c => (w.counts.get c.1).isNone

/-- There is room for the tokens that are new. -/
def Room (w : Window) (counts : List (String × UInt32)) : Prop :=
  newTokens w counts = [] ∨ w.tracked + (newTokens w counts).length ≤ maxTrackedTokens

instance (w : Window) (counts : List (String × UInt32)) : Decidable (Room w counts) := inferInstanceAs (Decidable (_ ∨ _))

variable {token : String} {count : UInt32} {rest : List (String × UInt32)}

/-- The first token finds room and leaves enough for the others. -/
theorem Room.first (h : Room w ((token, count) :: rest)) (hnodup : (((token, count) :: rest).map Prod.fst).Nodup) (entry : Nat) :
    (w.tracked < maxTrackedTokens ∨ (w.counts.get token).isSome) ∧ Room { w with counts := w.counts.put token entry } rest := by
  obtain ⟨hnot, -⟩ := List.nodup_cons.mp hnodup
  have hrest : newTokens { w with counts := w.counts.put token entry } rest = newTokens w rest := by
    refine List.filter_congr fun c hc => ?_
    have hne : c.1 ≠ token := fun heq => hnot (List.mem_map.mpr ⟨c, hc, heq⟩)
    rw [Table.get_put, if_neg hne]
  have htracked : Window.tracked { w with counts := w.counts.put token entry } =
      if (w.counts.get token).isNone then w.tracked + 1 else w.tracked := length_put _ _ _
  rw [Room, newTokens, List.filter_cons] at h
  rw [Room, hrest, htracked]
  cases hget : w.counts.get token with
  | none =>
    simp only [hget, Option.isNone_none, if_true, List.length_cons] at h ⊢
    rcases h with h | h
    · cases h
    · refine ⟨.inl (by omega), .inr ?_⟩
      change w.tracked + 1 + (rest.filter _).length ≤ _
      omega
  | some old =>
    simp only [hget, Option.isNone_some, Bool.false_eq_true, if_false] at h ⊢
    exact ⟨.inr rfl, h⟩

/-- A token is within its budget exactly if the limiter says so. -/
theorem fits_iff {old : Nat} (hpos : 0 < count.toNat) : saturatingAdd old count.toNat ≤ max.toNat ↔ ¬ exceeds max (max.toNat - old) count := by
  have hmax := max.toNat_lt
  rw [saturatingAdd, exceeds]
  have hu32 : u32Max = 2^32 - 1 := rfl
  omega

theorem charge_moved {counts : List (String × UInt32)} (h : counts ≠ []) : charge max now counts w = charge max now counts (w.moved now) := by
  obtain ⟨c, rest, rfl⟩ := List.exists_cons_of_ne_nil h
  rw [charge, charge, allow, allow, moved_of_eq (moved_second w now)]

/-- Tokens that are all within their budgets are all charged. -/
theorem charge_fits {counts : List (String × UInt32)} (hnow : w.second = now) (hnodup : (counts.map Prod.fst).Nodup) (hroom : Room w counts)
    (hpos : ∀ c ∈ counts, 0 < c.2.toNat) (hfits : ∀ c ∈ counts, ¬ exceeds max (max.toNat - w.count c.1) c.2) :
    (charge max now counts w).1 = true ∧ (charge max now counts w).2.second = now ∧
      ∀ other, (charge max now counts w).2.count other =
        match getKey counts other with
        | some n => saturatingAdd (w.count other) n.toNat
        | none => w.count other := by
  induction counts generalizing w with
  | nil => exact ⟨rfl, hnow, fun _ => rfl⟩
  | cons c rest ih =>
    obtain ⟨token, count⟩ := c
    obtain ⟨hnot, hnodup'⟩ := List.nodup_cons.mp hnodup
    obtain ⟨hfirst, hrest⟩ := hroom.first hnodup (saturatingAdd (w.count token) count.toNat)
    have hfit := (fits_iff (hpos _ (List.mem_cons_self ..))).mpr (hfits _ (List.mem_cons_self ..))
    have hallow : allow max w token count now = _ := allow_eq (by rw [moved_of_eq hnow]; exact hfirst)
    rw [moved_of_eq hnow, decide_eq_true hfit] at hallow
    rw [charge, hallow]
    have hothers : ∀ other, other ≠ token →
        Window.count { w with counts := w.counts.put token (saturatingAdd (w.count token) count.toNat) } other = w.count other :=
      fun other hne => by rw [count_put, if_neg hne]
    obtain ⟨htrue, hsecond, hcount⟩ := ih (w := { w with counts := w.counts.put token (saturatingAdd (w.count token) count.toNat) }) hnow hnodup' hrest (fun c hc => hpos c (List.mem_cons_of_mem _ hc)) fun c hc => by
      rw [hothers c.1 fun heq => hnot (List.mem_map.mpr ⟨c, hc, heq⟩)]
      exact hfits c (List.mem_cons_of_mem _ hc)
    refine ⟨htrue, hsecond, fun other => ?_⟩
    rw [hcount]
    by_cases hother : other = token
    · subst hother
      have hnone : getKey rest other = none := by
        cases hget : getKey rest other with
        | none => rfl
        | some n => exact absurd (List.mem_map_of_mem (mem_of_getKey hget)) hnot
      rw [hnone, count_put, if_pos rfl]
      simp [getKey]
    · have hlookup : getKey ((token, count) :: rest) other = getKey rest other := by
        simp [getKey, List.lookup_cons, beq_false_of_ne hother]
      rw [hlookup, hothers other hother]

/-- A request is refused at its first token where nothing is left of that token's budget, and nothing is lost. -/
theorem charge_exhausted (hnow : w.second = now) (hroom : w.tracked < maxTrackedTokens ∨ (w.counts.get token).isSome) (hmax : max.toNat < u32Max)
    (hpos : 0 < count.toNat) (hexhausted : max.toNat - w.count token = 0) : (charge max now ((token, count) :: rest) w).1 = false ∧
      (charge max now ((token, count) :: rest) w).2.second = now ∧
      ∀ other, max.toNat - (charge max now ((token, count) :: rest) w).2.count other = max.toNat - w.count other := by
  have hover : ¬ saturatingAdd (w.count token) count.toNat ≤ max.toNat := by
    rw [fits_iff hpos, not_not, exceeds]
    omega
  have hallow : allow max w token count now = _ := allow_eq (by rw [moved_of_eq hnow]; exact hroom)
  rw [moved_of_eq hnow, decide_eq_false hover] at hallow
  rw [charge, hallow]
  refine ⟨rfl, hnow, fun other => ?_⟩
  change max.toNat - Window.count { w with counts := _ } other = _
  rw [count_put]
  split
  · rename_i heq
    subst heq
    omega
  · rfl

/-- Charging gives nothing back. -/
theorem charge_le (counts : List (String × UInt32)) (hnow : w.second = now) (other : String) :
    max.toNat - (charge max now counts w).2.count other ≤ max.toNat - w.count other := by
  induction counts generalizing w with
  | nil => exact le_refl _
  | cons c rest ih =>
    have hmax := max.toNat_lt
    have hu32 : u32Max = 2^32 - 1 := rfl
    rw [charge]
    by_cases hroom : w.tracked < maxTrackedTokens ∨ (w.counts.get c.1).isSome
    · have hallow : allow max w c.1 c.2 now = _ := allow_eq (by rw [moved_of_eq hnow]; exact hroom)
      rw [moved_of_eq hnow] at hallow
      have hless : max.toNat - Window.count { w with counts := w.counts.put c.1 (saturatingAdd (w.count c.1) c.2.toNat) } other ≤
          max.toNat - w.count other := by
        rw [count_put]
        split
        · rename_i heq
          rw [heq, saturatingAdd]
          omega
        · exact le_refl _
      rw [hallow]
      by_cases hfit : saturatingAdd (w.count c.1) c.2.toNat ≤ max.toNat
      · rw [decide_eq_true hfit]
        exact (ih (w := { w with counts := w.counts.put c.1 (saturatingAdd (w.count c.1) c.2.toNat) }) hnow).trans hless
      · rw [decide_eq_false hfit]
        exact hless
    · have hopen : allow max w c.1 c.2 now = (true, w) := by
        rw [allow, moved_of_eq hnow]
        exact if_pos ⟨by omega, by simpa using fun h => hroom (.inr h)⟩
      rw [hopen]
      exact ih hnow

/-- The largest ceiling refuses nothing. -/
theorem charge_unlimited (counts : List (String × UInt32)) (h : u32Max ≤ max.toNat) : (charge max now counts w).1 = true := by
  induction counts generalizing w with
  | nil => rfl
  | cons c rest ih =>
    have hallowed : (allow max w c.1 c.2 now).1 = true := by
      rw [allow]
      dsimp only
      split
      · rfl
      · exact decide_eq_true ((min_le_right _ _).trans h)
    rw [charge]
    generalize allow max w c.1 c.2 now = answer at hallowed
    obtain ⟨allowed, w'⟩ := answer
    obtain rfl : allowed = true := hallowed
    exact ih

/-- A refused request loses nothing exactly if its first token had nothing left. -/
theorem refused_leaves_iff (hnow : w.second = now) (hroom : w.tracked < maxTrackedTokens ∨ (w.counts.get token).isSome) (hpos : 0 < count.toNat)
    (hrefused : (charge max now ((token, count) :: rest) w).1 = false) :
    (∀ other, max.toNat - (charge max now ((token, count) :: rest) w).2.count other = max.toNat - w.count other) ↔
      max.toNat - w.count token = 0 := by
  have hmax := max.toNat_lt
  have hu32 : u32Max = 2^32 - 1 := rfl
  have hallow : allow max w token count now = _ := allow_eq (by rw [moved_of_eq hnow]; exact hroom)
  rw [moved_of_eq hnow] at hallow
  constructor
  · intro hsame
    by_contra hleft
    have hless : max.toNat - (charge max now ((token, count) :: rest) w).2.count token ≤
        max.toNat - saturatingAdd (w.count token) count.toNat := by
      rw [charge, hallow]
      by_cases hfit : saturatingAdd (w.count token) count.toNat ≤ max.toNat
      · rw [decide_eq_true hfit]
        refine (charge_le (w := { w with counts := w.counts.put token (saturatingAdd (w.count token) count.toNat) }) rest hnow token).trans ?_
        rw [count_put, if_pos rfl]
      · rw [decide_eq_false hfit]
        change max.toNat - Window.count { w with counts := _ } token ≤ _
        rw [count_put, if_pos rfl]
    rw [hsame, saturatingAdd] at hless
    omega
  · intro hexhausted
    refine (charge_exhausted hnow hroom ?_ hpos hexhausted).2.2
    by_contra hunlimited
    rw [charge_unlimited _ (Nat.not_lt.mp hunlimited)] at hrefused
    cases hrefused

end charge

/-! Runs of requests in one second. -/
section requests
variable (max : UInt32) (now : Int)

/-- The requests so far with their answers, and the window. -/
def serve (s : List (Request × Answer) × Window) (r : Request) : List (Request × Answer) × Window :=
  let (answer, w) := capture max now s.2 r
  (s.1 ++ [(r, answer)], w)

def serveAll (w : Window) (requests : List Request) : List (Request × Answer) × Window := requests.foldl (serve max now) ([], w)

/-- The events of a token in a request. -/
def Request.sent (r : Request) (token : String) : Nat :=
  match r.parsed with
  | .events tokens => ((getKey (tokenCounts tokens) token).map UInt32.toNat).getD 0
  | _ => 0

/-- The events of a token that were accepted. -/
def accepted (token : String) (log : List (Request × Answer)) : Nat :=
  ((log.filter fun e => e.2 = .accepted).map fun e => e.1.sent token).sum

/-- Whether a request asks for more than the budgets of its own tokens. -/
def Request.over (r : Request) (budget : String → Nat) : Prop :=
  ∃ tokens, r.parsed = .events tokens ∧ (∀ c ∈ tokenCounts tokens, r.authorized c.1 = true) ∧ ∃ c ∈ tokenCounts tokens, exceeds max (budget c.1) c.2

/-- A request whose tokens find room, and that is either within all its budgets and stored, or refused at a first token that
has nothing left. -/
def Fair (w : Window) (r : Request) : Prop :=
  ∀ tokens, r.parsed = .events tokens → (∀ c ∈ tokenCounts tokens, r.authorized c.1 = true) →
    Room (w.moved now) (tokenCounts tokens) ∧
      ((∀ c ∈ tokenCounts tokens, ¬ exceeds max (remaining max now w c.1) c.2) ∧ r.sink = .ok ∨
        ∃ c, (tokenCounts tokens).head? = some c ∧ remaining max now w c.1 = 0 ∧ max.toNat < u32Max)

variable {max : UInt32} {now : Int} {w : Window} {r : Request}

theorem remaining_of_eq (h : w.second = now) (token : String) : remaining max now w token = max.toNat - w.count token := by
  rw [remaining, moved_of_eq h]

private theorem sub_saturatingAdd (old : Nat) (count : UInt32) :
    max.toNat - saturatingAdd old count.toNat = max.toNat - old - count.toNat := by
  have hmax := max.toNat_lt
  have hu32 : u32Max = 2^32 - 1 := rfl
  rw [saturatingAdd]
  omega

/-- A fair request takes from the budgets what is accepted of it, and is refused exactly if it asks for more than there is. -/
theorem Fair.capture (h : Fair max now w r) : ((RateLimit.capture max now w r).1 = .tooManyRequests ↔ r.over max (remaining max now w)) ∧
    ∀ token, remaining max now (RateLimit.capture max now w r).2 token =
      remaining max now w token - if (RateLimit.capture max now w r).1 = .accepted then r.sent token else 0 := by
  rw [RateLimit.capture]
  cases hparsed : r.parsed with
  | malformed =>
    refine ⟨⟨fun hrefused => (by cases hrefused), fun ⟨tokens, htokens, _⟩ => ?_⟩, fun token => rfl⟩
    rw [hparsed] at htokens
    cases htokens
  | unauthorized =>
    refine ⟨⟨fun hrefused => (by cases hrefused), fun ⟨tokens, htokens, _⟩ => ?_⟩, fun token => rfl⟩
    rw [hparsed] at htokens
    cases htokens
  | events tokens =>
    have hover : r.over max (remaining max now w) ↔ (∀ c ∈ tokenCounts tokens, r.authorized c.1 = true) ∧
        ∃ c ∈ tokenCounts tokens, exceeds max (remaining max now w c.1) c.2 := by
      constructor
      · rintro ⟨others, hothers, hall⟩
        rw [hparsed] at hothers
        cases hothers
        exact hall
      · exact fun hall => ⟨tokens, hparsed, hall⟩
    have hsent : ∀ token, r.sent token = ((getKey (tokenCounts tokens) token).map UInt32.toNat).getD 0 := fun token => by
      rw [Request.sent, hparsed]
    simp only [hover, hsent]
    by_cases hempty : tokens = []
    · subst hempty
      rw [if_pos rfl]
      refine ⟨⟨fun hrefused => (by cases hrefused), fun ⟨_, c, hc, _⟩ => absurd hc List.not_mem_nil⟩, fun token => ?_⟩
      rw [if_pos rfl]
      rfl
    · rw [if_neg hempty]
      by_cases hany : (tokenCounts tokens).any (fun c => !r.authorized c.1) = true
      · rw [if_pos hany]
        refine ⟨⟨fun hrefused => (by cases hrefused), fun ⟨hall, _⟩ => ?_⟩, fun token => rfl⟩
        obtain ⟨c, hc, hnot⟩ := List.any_eq_true.mp hany
        rw [hall c hc] at hnot
        cases hnot
      · rw [if_neg hany]
        have hall : ∀ c ∈ tokenCounts tokens, r.authorized c.1 = true := fun c hc => by
          by_contra hnot
          exact hany (List.any_eq_true.mpr ⟨c, hc, by simpa using hnot⟩)
        have hne := tokenCounts_ne_nil hempty
        have hpos : ∀ c ∈ tokenCounts tokens, 0 < c.2.toNat := tokenCounts_pos
        have hnodup := nodup_tokenCounts tokens
        rw [charge_moved hne]
        obtain ⟨hroom, ⟨hfits, hsink⟩ | ⟨c, hhead, hexhausted, hmax⟩⟩ := h tokens hparsed hall
        · obtain ⟨htrue, hsecond, hcount⟩ := charge_fits (moved_second w now) hnodup hroom hpos hfits
          generalize charge max now (tokenCounts tokens) (w.moved now) = answer at htrue hsecond hcount
          obtain ⟨allowed, w'⟩ := answer
          obtain rfl : allowed = true := htrue
          simp only [hsink]
          refine ⟨⟨fun hrefused => (by cases hrefused), fun ⟨_, c, hc, hexceeds⟩ => absurd hexceeds (hfits c hc)⟩, fun token => ?_⟩
          rw [if_pos trivial, remaining_of_eq hsecond, remaining, hcount]
          cases hget : getKey (tokenCounts tokens) token with
          | none => rfl
          | some n => exact sub_saturatingAdd _ n
        · obtain ⟨rest, hcounts⟩ := List.head?_eq_some_iff.mp hhead
          rw [hcounts] at hroom hnodup hpos ⊢
          obtain ⟨token, count⟩ := c
          have hfirst := (hroom.first hnodup 0).1
          have hcharge : (charge max now ((token, count) :: rest) (w.moved now)).1 = false ∧ _ :=
            charge_exhausted (moved_second w now) hfirst hmax (hpos _ (List.mem_cons_self ..)) hexhausted
          obtain ⟨hfalse, hsecond, hcount⟩ := hcharge
          generalize charge max now ((token, count) :: rest) (w.moved now) = answer at hfalse hsecond hcount
          obtain ⟨allowed, w'⟩ := answer
          obtain rfl : allowed = false := hfalse
          rw [hcounts] at hall
          refine ⟨⟨fun _ => ⟨hall, _, List.mem_cons_self .., hmax, ?_⟩, fun _ => rfl⟩, fun other => ?_⟩
          · rw [hexhausted]
            exact hpos _ (List.mem_cons_self ..)
          · rw [remaining_of_eq hsecond, hcount]
            rfl

theorem serveAll_append (past : List Request) (r : Request) : serveAll max now w (past ++ [r]) = serve max now (serveAll max now w past) r := by
  rw [serveAll, List.foldl_append]
  rfl

theorem accepted_append (token : String) (log : List (Request × Answer)) (r : Request) (answer : Answer) :
    accepted token (log ++ [(r, answer)]) = accepted token log + if answer = .accepted then r.sent token else 0 := by
  rw [accepted, List.filter_append, List.map_append, List.sum_append]
  by_cases h : answer = .accepted
  · simp [h, accepted]
  · simp [h, accepted]

/-- The budgets are what they were without what was accepted. -/
theorem serveAll_remaining {requests : List Request} (hfair : ∀ past r, past ++ [r] <+: requests → Fair max now (serveAll max now w past).2 r)
    (token : String) : remaining max now (serveAll max now w requests).2 token =
      remaining max now w token - accepted token (serveAll max now w requests).1 := by
  induction requests using List.reverseRecOn with
  | nil => rfl
  | append_singleton past r ih =>
    have hpast := ih fun _ _ hp => hfair _ _ (hp.trans (List.prefix_append past [r]))
    have hr := (hfair past r List.prefix_rfl).capture.2 token
    rw [serveAll_append, serve]
    dsimp only
    rw [hr, hpast, accepted_append, Nat.sub_sub]

/-- Where every request is fair, a refusal leaves the budgets as they were, and depends on what was accepted of a request's own
tokens alone. -/
theorem refusals_fair {requests : List Request} (hfair : ∀ past r, past ++ [r] <+: requests → Fair max now (serveAll max now w past).2 r)
    (past : List Request) (r : Request) (hr : past ++ [r] <+: requests) :
    ((capture max now (serveAll max now w past).2 r).1 = .unauthorized ∨ (capture max now (serveAll max now w past).2 r).1 = .tooManyRequests →
      ∀ token, remaining max now (capture max now (serveAll max now w past).2 r).2 token = remaining max now (serveAll max now w past).2 token) ∧
    ((capture max now (serveAll max now w past).2 r).1 = .tooManyRequests ↔
      r.over max fun token => remaining max now w token - accepted token (serveAll max now w past).1) := by
  have hstep := (hfair past r hr).capture
  have hpast := serveAll_remaining fun _ _ hp => hfair _ _ (hp.trans ((List.prefix_append past [r]).trans hr))
  refine ⟨fun hrefused token => ?_, ?_⟩
  · rw [hstep.2]
    rcases hrefused with h | h
    · rw [h]
      rfl
    · rw [h]
      rfl
  · rw [hstep.1, funext hpast]

/-- Two tokens of which the second is over, and the first alone. -/
def bothTokens : Request := ⟨.events ["phc_a", "phc_b", "phc_b", "phc_b"], fun _ => true, .ok⟩
def firstToken : Request := ⟨.events ["phc_a", "phc_a"], fun _ => true, .ok⟩

/-- The refused request is charged to the first token, whose next request is refused though nothing was accepted. -/
theorem refused_is_charged : (capture 2 1000 .new bothTokens).1 = .tooManyRequests ∧
    remaining 2 1000 (capture 2 1000 .new bothTokens).2 "phc_a" ≠ remaining 2 1000 .new "phc_a" ∧
    (capture 2 1000 (capture 2 1000 .new bothTokens).2 firstToken).1 = .tooManyRequests ∧
    ¬ firstToken.over 2 fun token => remaining 2 1000 .new token - accepted token (serveAll 2 1000 .new [bothTokens]).1 := by
  refine ⟨by decide, by decide, by decide, ?_⟩
  rintro ⟨tokens, htokens, -, hover⟩
  cases htokens
  revert hover
  decide

def oneEvent : Request := ⟨.events ["phc_a"], fun _ => true, .ok⟩

/-- At a ceiling of one, the second of two requests is refused and changes nothing. -/
theorem second_refused : (capture 1 1000 (serveAll 1 1000 .new [oneEvent]).2 oneEvent).1 = .tooManyRequests ∧
    ∀ token, remaining 1 1000 (capture 1 1000 (serveAll 1 1000 .new [oneEvent]).2 oneEvent).2 token =
      remaining 1 1000 (serveAll 1 1000 .new [oneEvent]).2 token := by
  have hfair : ∀ past r, past ++ [r] <+: [oneEvent, oneEvent] → Fair 1 1000 (serveAll 1 1000 .new past).2 r := by
    rintro past r ⟨rest, hrest⟩ tokens htokens -
    rcases past with _ | ⟨_, _ | ⟨_, past⟩⟩
    · obtain ⟨rfl, -⟩ := List.cons.inj hrest
      cases htokens
      exact ⟨by decide, .inl ⟨by decide, rfl⟩⟩
    · obtain ⟨hfirst, hrest⟩ := List.cons.inj hrest
      obtain ⟨rfl, -⟩ := List.cons.inj hrest
      rw [hfirst]
      cases htokens
      exact ⟨by decide, .inr ⟨("phc_a", 1), by decide, by decide, by decide⟩⟩
    · have hlength := congrArg List.length hrest
      simp at hlength
  have hrefused : (capture 1 1000 (serveAll 1 1000 .new [oneEvent]).2 oneEvent).1 = .tooManyRequests := by decide
  exact ⟨hrefused, (refusals_fair hfair [oneEvent] oneEvent List.prefix_rfl).1 (.inr hrefused)⟩

end requests
end Hoglet.RateLimit
