import Mathlib.Tactic

/-! A change feed: rows stamped with a growing counter, an epoch that says when to start over, and a
follower that keeps only the highest stamp it has applied. Rows never stamped have no image. -/
namespace Hoglet.Feed

/-- The source: each row's stamp and value, the counter behind the stamps, the epoch. -/
structure Source (κ ρ : Type) where
  row : κ → Option (Nat × ρ)
  counter : Nat
  epoch : Nat

variable {κ ρ τ : Type}

/-- No stamp is ahead of the counter, and what was never stamped has no image. -/
structure Source.Stamped (image : κ → ρ → Option τ) (s : Source κ ρ) : Prop where
  le : ∀ k n r, s.row k = some (n, r) → n ≤ s.counter
  unstamped : ∀ k r, s.row k = some (0, r) → image k r = none

/-- No row has an old stamp that it did not have before, and within an epoch a row is kept or gets a fresh
stamp. -/
structure Source.Advances (s s' : Source κ ρ) : Prop where
  epoch_le : s.epoch ≤ s'.epoch
  counter_le : s.counter ≤ s'.counter
  old : ∀ k n r, s'.row k = some (n, r) → n ≤ s.counter → n = 0 ∨ s.row k = some (n, r)
  kept : s'.epoch = s.epoch → ∀ k n r, s.row k = some (n, r) →
    s'.row k = some (n, r) ∨ ∃ n' r', s'.row k = some (n', r') ∧ s.counter < n'

/-- What the source's rows look like to the follower. -/
def Source.view (image : κ → ρ → Option τ) (s : Source κ ρ) (k : κ) : Option τ := (s.row k).bind fun r => image k r.2

/-- In the source's epoch, the table shows every row that is stamped no higher than `seq`. -/
def Tracks (image : κ → ρ → Option τ) (s : Source κ ρ) (epoch : Option Nat) (seq : Nat) (table : κ → Option τ) : Prop :=
  epoch = some s.epoch → seq ≤ s.counter ∧ (∀ k, s.row k = none → table k = none) ∧
    ∀ k n r, s.row k = some (n, r) → n ≤ seq → table k = image k r

/-- In the source's epoch, the changes are the rows stamped above `after` and up to `upto`; a row may
have been stamped again since it was read. -/
def Carries (s : Source κ ρ) (epoch after upto : Nat) (changes : κ → Option ρ) : Prop :=
  epoch = s.epoch → after ≤ upto ∧ upto ≤ s.counter ∧ (∀ k, s.row k = none → changes k = none) ∧
    ∀ k n r, s.row k = some (n, r) →
      (after < n → n ≤ upto → changes k = some r) ∧ (∀ p, changes k = some p → after < n ∧ (n ≤ upto → p = r))

/-- The table after the changes. -/
def patch (image : κ → ρ → Option τ) (table : κ → Option τ) (changes : κ → Option ρ) (k : κ) : Option τ :=
  match changes k with
  | some r => image k r
  | none => table k

section source
variable {s s' s'' : Source κ ρ}

theorem Source.Advances.refl (s : Source κ ρ) : s.Advances s :=
  ⟨le_refl _, le_refl _, fun _ _ _ h _ => .inr h, fun _ _ _ _ h => .inl h⟩

theorem Source.Advances.trans (h : s.Advances s') (h' : s'.Advances s'') : s.Advances s'' := by
  have hc := h.counter_le
  refine ⟨h.epoch_le.trans h'.epoch_le, hc.trans h'.counter_le, fun k n r hk hn => ?_, fun heq k n r hk => ?_⟩
  · rcases h'.old k n r hk (hn.trans hc) with h0 | hk'
    · exact .inl h0
    · exact h.old k n r hk' hn
  · have := h.epoch_le
    have := h'.epoch_le
    rcases h.kept (by omega) k n r hk with hk' | ⟨n', r', hk', hlt⟩
    · rcases h'.kept (by omega) k n r hk' with hk'' | ⟨n'', r'', hk'', hlt'⟩
      · exact .inl hk''
      · exact .inr ⟨n'', r'', hk'', by omega⟩
    · rcases h'.kept (by omega) k n' r' hk' with hk'' | ⟨n'', r'', hk'', hlt'⟩
      · exact .inr ⟨n', r', hk'', hlt⟩
      · exact .inr ⟨n'', r'', hk'', by omega⟩

/-- Rows that appear are unstamped or freshly stamped. -/
theorem Source.Advances.appeared (h : s.Advances s') {k : κ} {n : Nat} {r : ρ} (hk : s.row k = none)
    (hk' : s'.row k = some (n, r)) : n = 0 ∨ s.counter < n := by
  by_cases hn : n ≤ s.counter
  · rcases h.old k n r hk' hn with h0 | hold
    · exact .inl h0
    · rw [hk] at hold
      cases hold
  · exact .inr (not_le.mp hn)

/-- Carried changes stay what they are while the source advances. -/
theorem Carries.advances {epoch after upto : Nat} {changes : κ → Option ρ} (h : Carries s epoch after upto changes)
    (hle : epoch ≤ s.epoch) (ha : s.Advances s') : Carries s' epoch after upto changes := by
  intro heq
  have hs : s'.epoch = s.epoch := by
    have := ha.epoch_le
    omega
  obtain ⟨hafter, hupto, hnone, hrow⟩ := h (heq.trans hs)
  have hc := ha.counter_le
  refine ⟨hafter, hupto.trans hc, fun k hk' => ?_, fun k n r hk' => ?_⟩
  · cases hk : s.row k with
    | none => exact hnone k hk
    | some row =>
      rcases ha.kept hs k row.1 row.2 hk with hsame | ⟨n', r', hnew, _⟩
      · rw [hk'] at hsame
        cases hsame
      · rw [hk'] at hnew
        cases hnew
  · cases hk : s.row k with
    | none =>
      rcases ha.appeared hk hk' with h0 | hlt
      · exact ⟨fun hlt => absurd hlt (by omega), fun p hp => by rw [hnone k hk] at hp; cases hp⟩
      · exact ⟨fun _ hle' => absurd hle' (by omega), fun p hp => by rw [hnone k hk] at hp; cases hp⟩
    | some row =>
      obtain ⟨n₀, r₀⟩ := row
      rcases ha.kept hs k n₀ r₀ hk with hsame | ⟨n', r', hnew, hlt⟩
      · rw [hk'] at hsame
        cases hsame
        exact hrow k n r hk
      · rw [hk'] at hnew
        cases hnew
        exact ⟨fun _ hle' => absurd hle' (by omega), fun p hp => ⟨by omega, fun hle' => absurd hle' (by omega)⟩⟩

end source

section follower
variable {image : κ → ρ → Option τ} {s s' : Source κ ρ} {epoch : Option Nat} {seq : Nat} {table : κ → Option τ}

theorem Tracks.advances (h : Tracks image s epoch seq table) (hst : s'.Stamped image)
    (hle : ∀ e, epoch = some e → e ≤ s.epoch) (ha : s.Advances s') : Tracks image s' epoch seq table := by
  intro heq
  have hs : s'.epoch = s.epoch := by
    have := hle _ heq
    have := ha.epoch_le
    omega
  obtain ⟨hseq, hnone, hrow⟩ := h (by rw [heq, hs])
  have hc := ha.counter_le
  refine ⟨hseq.trans hc, fun k hk' => ?_, fun k n r hk' hn => ?_⟩
  · cases hk : s.row k with
    | none => exact hnone k hk
    | some row =>
      rcases ha.kept hs k row.1 row.2 hk with hsame | ⟨n', r', hnew, _⟩
      · rw [hk'] at hsame
        cases hsame
      · rw [hk'] at hnew
        cases hnew
  · cases hk : s.row k with
    | none =>
      rcases ha.appeared hk hk' with rfl | hlt
      · rw [hnone k hk, hst.unstamped k r hk']
      · omega
    | some row =>
      rcases ha.kept hs k row.1 row.2 hk with hsame | ⟨n', r', hnew, hlt⟩
      · rw [hk'] at hsame
        cases hsame
        exact hrow k _ _ hk hn
      · rw [hk'] at hnew
        cases hnew
        omega

/-- An emptied table tracks the source from stamp 0. -/
theorem tracks_empty (hst : s.Stamped image) (epoch : Option Nat) : Tracks image s epoch 0 fun _ => none := by
  refine fun _ => ⟨Nat.zero_le _, fun _ _ => rfl, fun k n r hk hn => ?_⟩
  obtain rfl : n = 0 := by omega
  exact (hst.unstamped k r hk).symm

/-- Applying the changes above the follower's stamp brings it to theirs. -/
theorem Tracks.patch {e upto : Nat} {changes : κ → Option ρ} (h : Tracks image s (some e) seq table)
    (hc : Carries s e seq upto changes) : Tracks image s (some e) upto (patch image table changes) := by
  intro heq
  obtain ⟨hseq, hnone, hrow⟩ := h heq
  obtain ⟨_, hupto, hcnone, hcrow⟩ := hc (Option.some.inj heq)
  refine ⟨hupto, fun k hk => ?_, fun k n r hk hn => ?_⟩
  · simp only [Feed.patch, hcnone k hk, hnone k hk]
  · obtain ⟨hin, hout⟩ := hcrow k n r hk
    by_cases hlt : seq < n
    · simp only [Feed.patch, hin hlt hn]
    · cases hch : changes k with
      | none => simp only [Feed.patch, hch, hrow k n r hk (by omega)]
      | some p => exact absurd (hout p hch).1 hlt

/-- A follower that has the counter's stamp shows the source as it is. -/
theorem Tracks.exact (h : Tracks image s (some s.epoch) s.counter table) (hst : s.Stamped image) : table = s.view image := by
  obtain ⟨_, hnone, hrow⟩ := h rfl
  funext k
  unfold Source.view
  cases hk : s.row k with
  | none => exact hnone k hk
  | some row => exact hrow k row.1 row.2 hk (hst.le k row.1 row.2 hk)

end follower
end Hoglet.Feed
