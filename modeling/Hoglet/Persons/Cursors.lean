import Hoglet.Capture.TextOrder
import Hoglet.Persons.Listing

/-! The cursors of the persons list: those that the server issues fit the length that it accepts, and lead back to the position that they
were issued for. -/
namespace Hoglet.Persons
open Capture Json

/-! How long the texts in a cursor are. -/
section lengths

/-- A control character takes the six characters of a `\u` escape, and any other one at most four bytes. -/
private theorem length_escapeChar (c : Char) : (utf8 (escapeChar c)).length ≤ 6 := by
  have hascii : ∀ n : Fin 128, (utf8 (escapeChar (Char.ofNat n.val))).length ≤ 6 := by decide
  by_cases hc : c.toNat < 128
  · have hlength := hascii ⟨c.toNat, hc⟩
    rwa [Char.ofNat_toNat] at hlength
  · have hne : ∀ d : Char, d.toNat < 128 → c ≠ d := fun d hd heq => hc (heq ▸ hd)
    have hself : escapeChar c = [c] := by
      rw [escapeChar, if_neg (hne _ (by decide)), if_neg (hne _ (by decide)), if_neg (hne _ (by decide)), if_neg (hne _ (by decide)),
        if_neg (hne _ (by decide)), if_neg (hne _ (by decide)), if_neg (hne _ (by decide)), if_neg (by omega)]
    have hsize := Char.utf8Size_le_four c
    rw [hself, length_utf8_singleton]
    omega

theorem length_printString (text : String) : (utf8 (printString text)).length ≤ 6 * text.toList.length + 2 := by
  have hchars : (utf8 (text.toList.flatMap escapeChar)).length ≤ 6 * text.toList.length := by
    induction text.toList with
    | nil => decide
    | cons c cs ih =>
      have hc := length_escapeChar c
      rw [List.flatMap_cons, length_utf8_append, List.length_cons]
      omega
  rw [printString, length_utf8_cons, length_utf8_append, length_utf8_singleton]
  have hquote : '"'.utf8Size = 1 := rfl
  omega

private theorem length_padded_le {width n room : Nat} (hwidth : width ≤ room) (hroom : 0 < room) (h : n < 10 ^ room) :
    (padded width n).length ≤ room := by
  have hdigits := (Nat.length_toDigits_le_iff (b := 10) (by norm_num) hroom).mpr h
  simp only [padded, List.length_append, List.length_replicate]
  omega

/-- The years of times have six digits. -/
private theorem year_lt (t : DateTime) : t.date.year.natAbs < 10 ^ 6 := by
  have hfirst : (civil (minNs / nsPerDay)).year = -262143 := by decide
  have hlast : (civil (maxNs / nsPerDay)).year = 262142 := by decide
  have hmin := t.min_le
  have hmax := t.le_max
  have hlow : ¬ (civil (t.ns / nsPerDay)).year < (civil (minNs / nsPerDay)).year := fun hlt => by
    have := (civil_lt _ _).mpr (.inl hlt)
    have := Int.ediv_le_ediv (c := nsPerDay) (by decide) hmin
    omega
  have hhigh : ¬ (civil (maxNs / nsPerDay)).year < (civil (t.ns / nsPerDay)).year := fun hlt => by
    have := (civil_lt _ _).mpr (.inl hlt)
    have := Int.ediv_le_ediv (c := nsPerDay) (by decide) hmax
    omega
  rw [DateTime.date]
  omega

theorem length_toRfc3339 (t : DateTime) : t.toRfc3339.toList.length ≤ 40 := by
  obtain ⟨hmonth, hday⟩ := civil_bounds (t.ns / nsPerDay)
  have hnanos : t.subsecNanos < 10 ^ 9 := by
    rw [DateTime.subsecNanos]
    omega
  have hyear : (yearText t.date.year).length ≤ 7 := by
    have := year_lt t
    unfold yearText
    split
    · have := @length_padded_le 4 t.date.year.toNat 6 (by decide) (by decide) (by omega)
      omega
    · have := @length_padded_le 4 t.date.year.natAbs 6 (by decide) (by decide) (by omega)
      rw [List.length_cons]
      omega
  have hclock : t.clockText.length ≤ 8 := by
    have hseconds : (t.ns % nsPerDay / 1000000000).toNat < 86400 := by
      rw [nsPerDay]
      omega
    rw [DateTime.clockText]
    simp only [List.length_append, List.length_cons]
    rw [length_padded 2 (by decide) (by omega), length_padded 2 (by decide) (by omega), length_padded 2 (by decide) (by omega)]
  have hfraction : (if t.subsecNanos = 0 then [] else if t.subsecNanos % 1000000 = 0 then '.' :: padded 3 (t.subsecNanos / 1000000)
      else if t.subsecNanos % 1000 = 0 then '.' :: padded 6 (t.subsecNanos / 1000) else '.' :: padded 9 t.subsecNanos).length ≤ 10 := by
    split
    · decide
    split
    · rw [List.length_cons, length_padded 3 (by decide) (by omega)]
      decide
    split
    · rw [List.length_cons, length_padded 6 (by decide) (by omega)]
      decide
    · rw [List.length_cons, length_padded 9 (by decide) hnanos]
  rw [DateTime.date] at hyear
  rw [DateTime.toRfc3339, DateTime.date, Civil.text]
  simp only [String.toList_ofList, List.length_append, List.length_cons, List.length_nil, length_padded 2 (by decide) hmonth,
    length_padded 2 (by decide) hday]
  omega

end lengths

section roundTrip
variable {ν U : Type} {K : Crates ν U}

/-- A position whose texts are as long as the server's dates and captured distinct ids are at most. -/
structure PersonCursor.Fits (cursor : PersonCursor) : Prop where
  createdAt : cursor.createdAt.toList.length ≤ 40
  id : cursor.id.toList.length ≤ maxDistinctIdChars

theorem PersonCursor.Fits.length_le {cursor : PersonCursor} (h : cursor.Fits) :
    (encodeCursor K cursor).utf8ByteSize ≤ maxCursorLength := by
  have hdate := length_printString cursor.createdAt
  have hid := length_printString cursor.id
  have hcreatedAt := h.createdAt
  have hchars : cursor.id.toList.length ≤ 200 := h.id
  rw [encodeCursor, utf8ByteSize_ofList, utf8_asciiText (Base64Url.encode_ascii _), maxCursorLength]
  have hencoded := Base64Url.length_encode_le (utf8 (print K.numbers (.array [.string cursor.createdAt, .string cursor.id])))
  have htext : print K.numbers (.array [.string cursor.createdAt, .string cursor.id]) =
      '[' :: (printString cursor.createdAt ++ ',' :: (printString cursor.id ++ [']'])) := rfl
  have hsizes : '['.utf8Size = 1 ∧ ','.utf8Size = 1 ∧ ']'.utf8Size = 1 := ⟨rfl, rfl, rfl⟩
  rw [htext] at hencoded ⊢
  rw [length_utf8_cons, length_utf8_append, length_utf8_cons, length_utf8_append, length_utf8_singleton] at hencoded
  omega

/-- The server accepts the cursors that it issues, and finds the positions in them. -/
theorem decodeCursor_encodeCursor {cursor : PersonCursor} (h : cursor.Fits) : decodeCursor K (encodeCursor K cursor) = .ok cursor := by
  have hnesting : nesting (.array [.string cursor.createdAt, .string cursor.id] : Value ν) ≤ recursionBudget := by
    simp only [nesting, nestingItems]
    decide
  rw [decodeCursor, if_neg (Nat.not_lt.mpr h.length_le), encodeCursor, String.toList_ofList, utf8_asciiText (Base64Url.encode_ascii _),
    Base64Url.decode_encode, Option.bind_some, ofUtf8_utf8, Option.bind_some, parse_print, if_pos hnesting]

theorem encodeCursor_ne_empty {cursor : PersonCursor} (h : cursor.Fits) : encodeCursor K cursor ≠ "" := by
  intro hempty
  have hdecoded := decodeCursor_encodeCursor (K := K) h
  rw [hempty] at hdecoded
  cases hdecoded

end roundTrip
end Hoglet.Persons
