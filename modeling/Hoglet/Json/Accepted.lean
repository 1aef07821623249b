import Hoglet.Json.RoundTrip

/-! What the reader accepts: texts without a NUL, values within its nesting budget. -/
namespace Hoglet.Json

/-- `rest` is what is left of `cs` after some characters other than NUL. -/
def NulFree (cs rest : List Char) : Prop := ∃ pre, cs = pre ++ rest ∧ '\x00' ∉ pre

theorem NulFree.refl (cs : List Char) : NulFree cs cs := ⟨[], rfl, by simp⟩

theorem NulFree.trans {a b c : List Char} (hab : NulFree a b) (hbc : NulFree b c) : NulFree a c := by
  obtain ⟨p, rfl, hp⟩ := hab
  obtain ⟨q, rfl, hq⟩ := hbc
  exact ⟨p ++ q, by simp, by simp [hp, hq]⟩

theorem NulFree.cons {c : Char} {rest out : List Char} (hc : c ≠ '\x00') (h : NulFree rest out) :
    NulFree (c :: rest) out := by
  obtain ⟨p, rfl, hp⟩ := h
  exact ⟨c :: p, rfl, by simp [hp, hc.symm]⟩

theorem nulFree_skipWhitespace (cs : List Char) : NulFree cs (skipWhitespace cs) := by
  induction cs with
  | nil => exact .refl _
  | cons c cs ih =>
    by_cases hw : isWhitespace c
    · rw [show skipWhitespace (c :: cs) = skipWhitespace cs by simp [skipWhitespace, hw]]
      refine ih.cons ?_
      rintro rfl
      exact absurd hw (by decide)
    · rw [skipWhitespace_cons cs (by simpa using hw)]
      exact .refl _

/-- Whatever the reader returns satisfies `P`, and it has passed no NUL. -/
def Accepts {α : Type} (reader : List Char → Option (α × List Char)) (P : α → Prop) : Prop :=
  ∀ cs x rest, reader cs = some (x, rest) → NulFree cs rest ∧ P x

private theorem hexValue_ne_nul {c : Char} {n : Nat} (h : hexValue c = some n) : c ≠ '\x00' := by
  rintro rfl
  rw [show hexValue '\x00' = none by decide] at h
  cases h

private theorem accepts_readHex4 : Accepts readHex4 fun _ => True := by
  intro cs n rest h
  refine ⟨?_, trivial⟩
  match cs, h with
  | a :: b :: c :: d :: tail, h =>
    simp only [readHex4, Option.bind_eq_bind, Option.bind_eq_some_iff] at h
    obtain ⟨_, ha, _, hb, _, hc, _, hd, h⟩ := h
    cases h
    exact ((((NulFree.refl _).cons (hexValue_ne_nul hd)).cons (hexValue_ne_nul hc)).cons
      (hexValue_ne_nul hb)).cons (hexValue_ne_nul ha)

private theorem accepts_readUnicode : Accepts readUnicode fun _ => True := by
  intro cs x rest h
  refine ⟨?_, trivial⟩
  simp only [readUnicode, Option.bind_eq_bind, Option.bind_eq_some_iff] at h
  obtain ⟨⟨n, mid⟩, hn, h⟩ := h
  have hmid := (accepts_readHex4 _ _ _ hn).1
  simp only at h
  split at h
  · cases h
  split at h
  · split at h
    · rename_i tail
      simp only [Option.bind_eq_some_iff] at h
      obtain ⟨⟨m, low⟩, hm, h⟩ := h
      have hlow := (accepts_readHex4 _ _ _ hm).1
      simp only at h
      split at h
      · simp only [pure, Option.some.injEq, Prod.mk.injEq] at h
        rw [← h.2]
        exact hmid.trans ((hlow.cons (by decide)).cons (by decide))
      · cases h
    · cases h
  · simp only [pure, Option.some.injEq, Prod.mk.injEq] at h
    rw [← h.2]
    exact hmid

private theorem accepts_readEscape : Accepts readEscape fun _ => True := by
  intro cs x rest h
  refine ⟨?_, trivial⟩
  unfold readEscape at h
  split at h
  case h_9 => exact ((accepts_readUnicode _ _ _ h).1).cons (by decide)
  case h_10 => cases h
  all_goals
    cases h
    exact (NulFree.refl _).cons (by decide)

private theorem accepts_readChars (fuel : Nat) : Accepts (readChars fuel) fun _ => True := by
  intro cs x rest h
  refine ⟨?_, trivial⟩
  induction fuel generalizing cs x rest with
  | zero => cases cs <;> cases h
  | succ fuel ih =>
    cases cs with
    | nil => cases h
    | cons c tail =>
      rw [readChars] at h
      split at h
      · cases h
        rename_i hc
        exact (NulFree.refl _).cons (by rw [hc]; decide)
      split at h
      · rename_i hc
        simp only [Option.bind_eq_bind, Option.bind_eq_some_iff] at h
        obtain ⟨⟨e, mid⟩, he, ⟨es, out⟩, hes, h⟩ := h
        cases h
        exact ((accepts_readEscape _ _ _ he).1.trans (ih _ _ _ hes)).cons (by rw [hc]; decide)
      split at h
      · cases h
      · rename_i hc
        simp only [Option.bind_eq_bind, Option.bind_eq_some_iff] at h
        obtain ⟨⟨es, out⟩, hes, h⟩ := h
        cases h
        refine (ih _ _ _ hes).cons ?_
        rintro rfl
        exact hc (by decide)

theorem accepts_readString : Accepts readString fun _ => True := by
  intro cs x rest h
  simp only [readString, Option.bind_eq_bind, Option.bind_eq_some_iff] at h
  obtain ⟨⟨es, out⟩, hes, h⟩ := h
  cases h
  exact accepts_readChars _ _ _ _ hes

section elements
variable {α : Type} {close : Char} {element : List Char → Option (α × List Char)} {P : α → Prop}

private theorem accepts_readTail (hc : close ≠ '\x00') (h : Accepts element P) (fuel : Nat) :
    Accepts (readTail close element fuel) fun xs => ∀ x ∈ xs, P x := by
  intro cs xs rest hr
  induction fuel generalizing cs xs with
  | zero => cases hr
  | succ fuel ih =>
    have hw := nulFree_skipWhitespace cs
    rw [readTail] at hr
    split at hr
    · cases hr
    · rename_i c tail hs
      rw [hs] at hw
      split at hr
      · rename_i heq
        cases hr
        exact ⟨hw.trans ((NulFree.refl _).cons (heq ▸ hc)), by simp⟩
      split at hr
      · rename_i heq
        simp only [Option.bind_eq_bind, Option.bind_eq_some_iff] at hr
        obtain ⟨⟨x, mid⟩, hx, ⟨ys, out⟩, hys, hr⟩ := hr
        cases hr
        obtain ⟨hmid, hp⟩ := h _ _ _ hx
        obtain ⟨hout, hps⟩ := ih _ _ hys
        exact ⟨hw.trans ((hmid.trans hout).cons (by rw [heq]; decide)), List.forall_mem_cons.mpr ⟨hp, hps⟩⟩
      · cases hr

theorem accepts_readElements (hc : close ≠ '\x00') (h : Accepts element P) :
    Accepts (readElements close element) fun xs => ∀ x ∈ xs, P x := by
  intro cs xs rest hr
  have hw := nulFree_skipWhitespace cs
  rw [readElements] at hr
  split at hr
  · cases hr
  · rename_i c tail hs
    rw [hs] at hw
    split at hr
    · rename_i heq
      cases hr
      exact ⟨hw.trans ((NulFree.refl _).cons (heq ▸ hc)), by simp⟩
    · simp only [Option.bind_eq_bind, Option.bind_eq_some_iff] at hr
      obtain ⟨⟨x, mid⟩, hx, ⟨ys, out⟩, hys, hr⟩ := hr
      cases hr
      obtain ⟨hmid, hp⟩ := h _ _ _ hx
      obtain ⟨hout, hps⟩ := accepts_readTail hc h _ _ _ _ hys
      exact ⟨hw.trans (hmid.trans hout), List.forall_mem_cons.mpr ⟨hp, hps⟩⟩

theorem accepts_readMember (h : Accepts element P) :
    Accepts (readMember element) fun m => P m.2 := by
  intro cs m rest hr
  have hw := nulFree_skipWhitespace cs
  unfold readMember at hr
  split at hr
  · rename_i tail hs
    rw [hs] at hw
    simp only [Option.bind_eq_bind, Option.bind_eq_some_iff] at hr
    obtain ⟨⟨key, mid⟩, hkey, hr⟩ := hr
    have hk := (accepts_readString _ _ _ hkey).1
    have hm := nulFree_skipWhitespace mid
    simp only at hr
    split at hr
    · rename_i body hcolon
      rw [hcolon] at hm
      simp only [Option.bind_eq_some_iff] at hr
      obtain ⟨⟨v, out⟩, hv, hr⟩ := hr
      cases hr
      obtain ⟨hout, hp⟩ := h _ _ _ hv
      exact ⟨hw.trans ((hk.trans (hm.trans (hout.cons (by decide)))).cons (by decide)), hp⟩
    · cases hr
  · cases hr

end elements

section value
variable {ν : Type} {N : Numbers ν}

private theorem accepts_readScalar : Accepts (readScalar N) fun v => nesting v = 0 := by
  intro cs v rest h
  unfold readScalar at h
  split at h
  · cases h
    exact ⟨⟨['n', 'u', 'l', 'l'], rfl, by decide⟩, rfl⟩
  · cases h
    exact ⟨⟨['t', 'r', 'u', 'e'], rfl, by decide⟩, rfl⟩
  · cases h
    exact ⟨⟨['f', 'a', 'l', 's', 'e'], rfl, by decide⟩, rfl⟩
  · simp only [Option.map_eq_some_iff] at h
    obtain ⟨⟨s, out⟩, hs, h⟩ := h
    cases h
    exact ⟨(accepts_readString _ _ _ hs).1.cons (by decide), rfl⟩
  · split at h
    · simp only [Option.map_eq_some_iff] at h
      obtain ⟨⟨n, out⟩, hn, h⟩ := h
      cases h
      obtain ⟨pre, hpre, hc⟩ := N.lex_split _ _ _ hn
      refine ⟨⟨pre, hpre, fun hz => ?_⟩, rfl⟩
      exact absurd (hc _ hz) (by decide)
    · cases h
  · cases h

theorem accepts_readValue (d : Nat) : Accepts (readValue N d) fun v => nesting v ≤ d := by
  induction d with
  | zero =>
    intro cs v rest h
    obtain ⟨hn, hv⟩ := accepts_readScalar _ _ _ h
    exact ⟨(nulFree_skipWhitespace cs).trans hn, Nat.le_of_eq hv⟩
  | succ d ih =>
    intro cs v rest h
    have hw := nulFree_skipWhitespace cs
    rw [readValue] at h
    split at h
    · rename_i tail hs
      rw [hs] at hw
      simp only [Option.map_eq_some_iff] at h
      obtain ⟨⟨xs, out⟩, hx, h⟩ := h
      cases h
      obtain ⟨hn, hp⟩ := accepts_readElements (by decide) ih _ _ _ hx
      exact ⟨hw.trans (hn.cons (by decide)), Nat.succ_le_succ ((nestingItems_le xs).mpr hp)⟩
    · rename_i tail hs
      rw [hs] at hw
      simp only [Option.map_eq_some_iff] at h
      obtain ⟨⟨ms, out⟩, hx, h⟩ := h
      cases h
      obtain ⟨hn, hp⟩ := accepts_readElements (by decide) (accepts_readMember ih) _ _ _ hx
      exact ⟨hw.trans (hn.cons (by decide)), Nat.succ_le_succ ((nestingMembers_le ms).mpr hp)⟩
    · obtain ⟨hn, hv⟩ := accepts_readScalar _ _ _ h
      exact ⟨hw.trans hn, by omega⟩

theorem nesting_of_parse {d : Nat} {cs : List Char} {v : Value ν} (h : parse N d cs = some v) : nesting v ≤ d := by
  unfold parse at h
  split at h
  · split at h
    · cases h
      exact (accepts_readValue d _ _ _ ‹_›).2
    · cases h
  · cases h

theorem parse_nul {d : Nat} {cs : List Char} (h : '\x00' ∈ cs) : parse N d cs = none := by
  unfold parse
  split
  · rename_i v rest hv
    obtain ⟨⟨pre, hpre, hn⟩, _⟩ := accepts_readValue d _ _ _ hv
    split
    · rename_i hs
      obtain ⟨ws, hws, hnw⟩ := nulFree_skipWhitespace rest
      rw [hs, List.append_nil] at hws
      rw [hpre, hws] at h
      exact absurd h (by simp [hn, hnw])
    · rfl
  · rfl

theorem parse_nil (d : Nat) : parse N d [] = none := by
  cases d <;> rfl

end value
end Hoglet.Json
