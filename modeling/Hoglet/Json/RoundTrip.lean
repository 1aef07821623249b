import Hoglet.Json.Text

/-! The reader inverts the printer exactly up to its nesting budget, reads no NUL, and never returns
more nesting than it was given. -/
namespace Hoglet.Json

theorem endsNumber_nil : EndsNumber [] := by simp [EndsNumber]

theorem endsNumber_cons {c : Char} (rest : List Char) (h : isNumberChar c = false) : EndsNumber (c :: rest) := by
  simpa [EndsNumber] using h

theorem skipWhitespace_cons {c : Char} (cs : List Char) (h : isWhitespace c = false) :
    skipWhitespace (c :: cs) = c :: cs := by simp [skipWhitespace, h]

private theorem hexValue_hexDigit : ∀ n < 16, hexValue (hexDigit n) = some n := by decide

private theorem readUnicode_control (c : Char) (h : c.toNat < 32) (rest : List Char) :
    readUnicode ('0' :: '0' :: hexDigit (c.toNat / 16) :: hexDigit (c.toNat % 16) :: rest) = some (c, rest) := by
  have hhi := hexValue_hexDigit (c.toNat / 16) (by omega)
  have hlo := hexValue_hexDigit (c.toNat % 16) (by omega)
  have hn : 0 * 4096 + 0 * 256 + c.toNat / 16 * 16 + c.toNat % 16 = c.toNat := by omega
  have h4 : readHex4 ('0' :: '0' :: hexDigit (c.toNat / 16) :: hexDigit (c.toNat % 16) :: rest) =
      some (c.toNat, rest) := by
    simp only [readHex4, show hexValue '0' = some 0 from rfl, hhi, hlo, Option.bind_eq_bind, Option.bind_some, hn]
    rfl
  simp only [readUnicode, h4, Option.bind_eq_bind, Option.bind_some]
  rw [if_neg (by omega), if_neg (by omega), Char.ofNat_toNat]
  rfl

private theorem readChars_escapeChar (fuel : Nat) (c : Char) (rest : List Char) :
    readChars (fuel + 1) (escapeChar c ++ rest) = (readChars fuel rest).map fun p => (c :: p.1, p.2) := by
  have hbind : ∀ o : Option (List Char × List Char),
      (do let p ← o; return (c :: p.1, p.2)) = o.map fun p => (c :: p.1, p.2) := by
    intro o
    cases o <;> rfl
  unfold escapeChar
  split
  · subst_vars; simp [readChars, readEscape, ← hbind]
  split
  · subst_vars; simp [readChars, readEscape, ← hbind]
  split
  · subst_vars; simp [readChars, readEscape, ← hbind]
  split
  · subst_vars; simp [readChars, readEscape, ← hbind]
  split
  · subst_vars; simp [readChars, readEscape, ← hbind]
  split
  · subst_vars; simp [readChars, readEscape, ← hbind]
  split
  · subst_vars; simp [readChars, readEscape, ← hbind]
  split
  · rename_i h
    simp [readChars, readEscape, readUnicode_control c h, ← hbind]
  · simp_all [readChars, ← hbind]

private theorem readChars_escape (fuel : Nat) (cs rest : List Char) (h : cs.length < fuel) :
    readChars fuel (cs.flatMap escapeChar ++ '"' :: rest) = some (cs, rest) := by
  induction cs generalizing fuel with
  | nil =>
    obtain ⟨fuel, rfl⟩ := Nat.exists_eq_succ_of_ne_zero (Nat.ne_of_gt h)
    simp [readChars]
  | cons c cs ih =>
    obtain ⟨fuel, rfl⟩ := Nat.exists_eq_succ_of_ne_zero (Nat.ne_of_gt (Nat.zero_lt_of_lt h))
    rw [List.flatMap_cons, List.append_assoc, readChars_escapeChar, ih fuel (by simpa using h)]
    rfl

private theorem length_le_escape (cs : List Char) : cs.length ≤ (cs.flatMap escapeChar).length := by
  induction cs with
  | nil => simp
  | cons c cs ih =>
    have : 0 < (escapeChar c).length := by
      unfold escapeChar
      split_ifs <;> simp
    simp only [List.flatMap_cons, List.length_append, List.length_cons]
    omega

theorem readString_print (s : String) (rest : List Char) :
    readString (s.toList.flatMap escapeChar ++ '"' :: rest) = some (s, rest) := by
  have := length_le_escape s.toList
  rw [readString, readChars_escape _ _ _ (by simp only [List.length_append, List.length_cons]; omega)]
  simp

/-! Lists of elements, for arrays and objects alike. -/
section elements
variable {α : Type} {close : Char} {element : List Char → Option (α × List Char)} {text : α → List Char}
  {fits : α → Prop} [DecidablePred fits]

/-- An element's text is read back when the element fits, and refused when it does not. -/
def ReadsBack (element : List Char → Option (α × List Char)) (text : α → List Char) (fits : α → Prop)
    [DecidablePred fits] : Prop :=
  ∀ x rest, EndsNumber rest → element (text x ++ rest) = if fits x then some (x, rest) else none

/-- A closing bracket: no whitespace, no comma and no part of a number. -/
structure Closes (close : Char) : Prop where
  visible : isWhitespace close = false
  not_comma : close ≠ ','
  ends : isNumberChar close = false

theorem closes_array : Closes ']' := ⟨rfl, by decide, by decide⟩
theorem closes_object : Closes '}' := ⟨rfl, by decide, by decide⟩

theorem endsNumber_printTail (hc : Closes close) (ts : List (List Char)) (rest : List Char) :
    EndsNumber (printTail close ts ++ rest) := by
  cases ts with
  | nil => exact endsNumber_cons _ hc.ends
  | cons t ts => exact endsNumber_cons _ (by decide)

private theorem readTail_print (hc : Closes close) (h : ReadsBack element text fits) (fuel : Nat) (xs : List α)
    (rest : List Char) (hf : xs.length < fuel) :
    readTail close element fuel (printTail close (xs.map text) ++ rest) =
      if ∀ x ∈ xs, fits x then some (xs, rest) else none := by
  induction xs generalizing fuel with
  | nil =>
    obtain ⟨fuel, rfl⟩ := Nat.exists_eq_succ_of_ne_zero (Nat.ne_of_gt hf)
    simp [readTail, printTail, skipWhitespace_cons _ hc.visible]
  | cons x xs ih =>
    obtain ⟨fuel, rfl⟩ := Nat.exists_eq_succ_of_ne_zero (Nat.ne_of_gt (Nat.zero_lt_of_lt hf))
    have hx := h x (printTail close (xs.map text) ++ rest) (endsNumber_printTail hc _ _)
    have hi := ih fuel (by simpa using hf)
    simp only [readTail, List.map_cons, printTail, List.cons_append, List.append_assoc,
      skipWhitespace_cons _ (show isWhitespace ',' = false from rfl), hc.not_comma.symm, if_false, if_true, hx]
    by_cases hfit : fits x
    · simp only [hfit, if_true, hi, List.forall_mem_cons, true_and, Option.bind_eq_bind, Option.bind_some]
      split <;> rfl
    · simp [hfit]

theorem length_le_printTail (ts : List (List Char)) : ts.length < (printTail close ts).length := by
  induction ts with
  | nil => simp [printTail]
  | cons t ts ih =>
    simp only [printTail, List.length_cons, List.length_append]
    omega

theorem readElements_print (hc : Closes close) (h : ReadsBack element text fits)
    (hstart : ∀ x, ∃ c cs, text x = c :: cs ∧ isWhitespace c = false ∧ c ≠ close) (xs : List α)
    (rest : List Char) :
    readElements close element (printElements close (xs.map text) ++ rest) =
      if ∀ x ∈ xs, fits x then some (xs, rest) else none := by
  cases xs with
  | nil => simp [readElements, printElements, skipWhitespace_cons _ hc.visible]
  | cons x xs =>
    obtain ⟨c, cs, htext, hw, hne⟩ := hstart x
    have hx := h x (printTail close (xs.map text) ++ rest) (endsNumber_printTail hc _ _)
    have hlen : _ < (printTail close _).length := length_le_printTail (xs.map text)
    have ht := readTail_print hc h (printTail close (xs.map text) ++ rest).length xs rest (by
      rw [List.length_append]
      rw [List.length_map] at hlen
      omega)
    rw [htext, List.cons_append] at hx
    simp only [readElements, List.map_cons, printElements, htext, List.cons_append, List.append_assoc,
      skipWhitespace_cons _ hw, hne, if_false, hx]
    by_cases hfit : fits x
    · simp only [hfit, if_true, ht, List.forall_mem_cons, true_and, Option.bind_eq_bind, Option.bind_some]
      split <;> rfl
    · simp [hfit]

end elements

section value
variable {ν : Type} {N : Numbers ν}

theorem ne_of_numberStart {c d : Char} (hc : StartsNumber c) (hd : ¬StartsNumber d) : c ≠ d := by
  rintro rfl
  exact hd hc

theorem print_start (v : Value ν) : ∃ c cs, print N v = c :: cs ∧ isWhitespace c = false ∧ c ≠ ']' := by
  cases v with
  | null => exact ⟨_, _, rfl, rfl, by decide⟩
  | bool b => cases b <;> exact ⟨_, _, rfl, rfl, by decide⟩
  | number n =>
    obtain ⟨c, cs, htext, hc⟩ := N.text_start n
    refine ⟨c, cs, htext, ?_, ?_⟩
    · simp [isWhitespace, ne_of_numberStart hc (show ¬StartsNumber ' ' by decide),
        ne_of_numberStart hc (show ¬StartsNumber '\n' by decide),
        ne_of_numberStart hc (show ¬StartsNumber '\t' by decide),
        ne_of_numberStart hc (show ¬StartsNumber '\r' by decide)]
    · exact ne_of_numberStart hc (by decide)
  | string s => exact ⟨_, _, rfl, rfl, by decide⟩
  | array items => exact ⟨_, _, rfl, rfl, by decide⟩
  | object members => exact ⟨_, _, rfl, rfl, by decide⟩

private theorem readScalar_number (n : ν) (rest : List Char) (hr : EndsNumber rest) :
    readScalar N (skipWhitespace (N.text n ++ rest)) = some (.number n, rest) := by
  obtain ⟨c, cs, htext, hw, _⟩ := print_start (N := N) (.number n)
  obtain ⟨c', cs', htext', hc⟩ := N.text_start n
  rw [print, htext'] at htext
  cases htext
  have hlex := N.lex_text n rest hr
  rw [htext', List.cons_append] at hlex
  rw [htext', List.cons_append, skipWhitespace_cons _ hw, readScalar]
  · rw [if_pos hc, hlex]
    rfl
  all_goals
    intros
    subst_vars
    exact absurd hc (by decide)

private theorem readValue_scalar (d : Nat) {cs : List Char} (ha : ∀ r, skipWhitespace cs ≠ '[' :: r)
    (ho : ∀ r, skipWhitespace cs ≠ '{' :: r) : readValue N d cs = readScalar N (skipWhitespace cs) := by
  cases d with
  | zero => rfl
  | succ d =>
    rw [readValue]
    split
    · exact absurd ‹_› (ha _)
    · exact absurd ‹_› (ho _)
    · rfl

private theorem readMember_print {d : Nat}
    (h : ∀ (v : Value ν) rest, EndsNumber rest →
      readValue N d (print N v ++ rest) = if nesting v ≤ d then some (v, rest) else none) :
    ReadsBack (readMember (readValue N d)) (memberText N) (fun m => nesting m.2 ≤ d) := by
  rintro ⟨key, v⟩ rest hr
  simp only [memberText, printString, List.cons_append, List.append_assoc, List.nil_append, readMember,
    skipWhitespace_cons _ (show isWhitespace '"' = false from rfl), readString_print,
    skipWhitespace_cons _ (show isWhitespace ':' = false from rfl), h v rest hr, Option.bind_eq_bind, Option.bind_some]
  split <;> rfl

private theorem memberText_start (m : String × Value ν) :
    ∃ c cs, memberText N m = c :: cs ∧ isWhitespace c = false ∧ c ≠ '}' :=
  ⟨'"', _, rfl, rfl, by decide⟩

/-- A printed value is read back if it nests within the budget, and refused if it does not. -/
theorem readValue_print (d : Nat) (v : Value ν) (rest : List Char) (hr : EndsNumber rest) :
    readValue N d (print N v ++ rest) = if nesting v ≤ d then some (v, rest) else none := by
  induction d generalizing v rest with
  | zero =>
    cases v with
    | null => rfl
    | bool b => cases b <;> rfl
    | number n =>
      rw [readValue, print, readScalar_number n rest hr]
      simp [nesting]
    | string s => simp [readValue, print, printString, skipWhitespace_cons, isWhitespace, readScalar, readString_print, nesting]
    | array items => simp [readValue, print, skipWhitespace_cons, isWhitespace, readScalar, nesting]
    | object members => simp [readValue, print, skipWhitespace_cons, isWhitespace, readScalar, nesting]
  | succ d ih =>
    cases v with
    | null => rfl
    | bool b => cases b <;> rfl
    | number n =>
      obtain ⟨c, cs, htext, hc⟩ := N.text_start n
      obtain ⟨c', cs', htext', hw, _⟩ := print_start (N := N) (.number n)
      rw [print, htext] at htext'
      cases htext'
      have hs : skipWhitespace (print N (.number n) ++ rest) = c :: (cs ++ rest) := by
        rw [print, htext, List.cons_append, skipWhitespace_cons _ hw]
      rw [readValue_scalar, print, readScalar_number n rest hr]
      · simp [nesting]
      all_goals
        intro r h
        rw [hs, List.cons.injEq] at h
        exact ne_of_numberStart hc (by decide) h.1
    | string s => simp [readValue, print, printString, skipWhitespace_cons, isWhitespace, readScalar, readString_print, nesting]
    | array items =>
      have hread : ReadsBack (readValue N d) (print N) (fun v => nesting v ≤ d) := fun v rest hr => ih v rest hr
      have hi := readElements_print closes_array hread print_start items rest
      simp only [print, itemTexts_eq, List.cons_append, readValue,
        skipWhitespace_cons _ (show isWhitespace '[' = false from rfl), hi, nesting, Nat.add_le_add_iff_right,
        nestingItems_le]
      split <;> rfl
    | object members =>
      have hm := readElements_print closes_object (readMember_print ih) memberText_start members rest
      simp only [print, memberTexts_eq, List.cons_append, readValue,
        skipWhitespace_cons _ (show isWhitespace '{' = false from rfl), hm, nesting, Nat.add_le_add_iff_right,
        nestingMembers_le]
      split <;> rfl

theorem parse_print (d : Nat) (v : Value ν) :
    parse N d (print N v) = if nesting v ≤ d then some v else none := by
  have h := readValue_print (N := N) d v [] endsNumber_nil
  rw [List.append_nil] at h
  rw [parse, h]
  by_cases hd : nesting v ≤ d <;> simp [hd, skipWhitespace]

end value
end Hoglet.Json
