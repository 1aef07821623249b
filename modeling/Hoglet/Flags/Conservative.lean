import Hoglet.Flags.Nesting

/-! What the nesting guard's count says of the brackets that a JSON5 reader has open. The guard knows no comments: it
reads them as code, quotes and brackets included. -/
namespace Hoglet.Flags
open Json Json5 Capture

/-- Brackets opened less brackets closed, as the guard counts them from where it is. -/
def balance : Option (Quote × Bool) → List Char → Int
  | _, [] => 0
  | quoted, c :: text => (if quoted.isNone then (bracket c 1 : Int) - 1 else 0) + balance (nextQuoted quoted c) text

/-- A comment that leaves the guard outside strings, and closes no more brackets than it opens. -/
def Harmless (comment : List Char) : Prop := comment.foldl nextQuoted none = none ∧ 0 ≤ balance none comment

instance (comment : List Char) : Decidable (Harmless comment) := inferInstanceAs (Decidable (_ ∧ _))

section run
variable {quoted : Option (Quote × Bool)} {depth depth' : Nat}

theorem run_append (g : Guard) (text more : List Char) : g.run (text ++ more) = (g.run text).run more := List.foldl_append

/-- Outside strings. -/
theorem run_code (depth : Nat) (c : Char) (text : List Char) :
    Guard.run ⟨none, depth⟩ (c :: text) = Guard.run ⟨nextQuoted none c, bracket c depth⟩ text := rfl

/-- Inside one. -/
theorem run_string (quoted : Quote × Bool) (depth : Nat) (c : Char) (text : List Char) :
    Guard.run ⟨some quoted, depth⟩ (c :: text) = Guard.run ⟨nextQuoted (some quoted) c, depth⟩ text := rfl

theorem balance_code (c : Char) (text : List Char) :
    balance none (c :: text) = ((bracket c 1 : Int) - 1) + balance (nextQuoted none c) text := rfl

theorem balance_string (quoted : Quote × Bool) (c : Char) (text : List Char) :
    balance (some quoted) (c :: text) = balance (nextQuoted (some quoted) c) text := zero_add _

theorem run_quoted (quoted : Option (Quote × Bool)) (depth : Nat) (text : List Char) :
    (Guard.run ⟨quoted, depth⟩ text).quoted = text.foldl nextQuoted quoted := by
  induction text generalizing quoted depth with
  | nil => rfl
  | cons c text ih => exact ih _ _

/-- Closing brackets are counted while there are brackets open. -/
theorem bracket_cases (c : Char) (depth : Nat) :
    bracket c depth = depth + 1 ∧ bracket c 1 = 2 ∨ bracket c depth = depth - 1 ∧ bracket c 1 = 0 ∨
      bracket c depth = depth ∧ bracket c 1 = 1 := by
  unfold bracket
  split
  · exact .inl ⟨rfl, rfl⟩
  · split
    · exact .inr (.inl ⟨rfl, rfl⟩)
    · exact .inr (.inr ⟨rfl, rfl⟩)

/-- A closing bracket with none open is not counted, so that the count is never below the balance. -/
theorem balance_le_run (quoted : Option (Quote × Bool)) (depth : Nat) (text : List Char) :
    (depth : Int) + balance quoted text ≤ (Guard.run ⟨quoted, depth⟩ text).depth := by
  induction text generalizing quoted depth with
  | nil => exact le_of_eq (add_zero _)
  | cons c text ih =>
    cases quoted with
    | none =>
      have hrest := ih (nextQuoted none c) (bracket c depth)
      have hc := bracket_cases c depth
      rw [run_code, balance_code]
      omega
    | some quoted =>
      rw [run_string, balance_string]
      exact ih _ _

/-- With enough brackets open every closing one is counted. -/
theorem run_eq_balance {text : List Char} (h : text.length ≤ depth) :
    ((Guard.run ⟨quoted, depth⟩ text).depth : Int) = depth + balance quoted text := by
  induction text generalizing quoted depth with
  | nil => exact (add_zero _).symm
  | cons c text ih =>
    rw [List.length_cons] at h
    cases quoted with
    | none =>
      have hc := bracket_cases c depth
      rw [run_code, balance_code, ih (by omega)]
      omega
    | some quoted =>
      rw [run_string, balance_string]
      exact ih (by omega)

theorem run_le (quoted : Option (Quote × Bool)) (depth : Nat) (text : List Char) :
    (Guard.run ⟨quoted, depth⟩ text).depth ≤ depth + text.length := by
  induction text generalizing quoted depth with
  | nil => exact le_rfl
  | cons c text ih =>
    rw [List.length_cons]
    cases quoted with
    | none =>
      have hrest := ih (nextQuoted none c) (bracket c depth)
      have hc := bracket_cases c depth
      rw [run_code]
      omega
    | some quoted =>
      have hrest := ih (nextQuoted (some quoted) c) depth
      rw [run_string]
      omega

theorem run_mono (h : depth ≤ depth') (text : List Char) :
    (Guard.run ⟨quoted, depth⟩ text).depth ≤ (Guard.run ⟨quoted, depth'⟩ text).depth := by
  induction text generalizing quoted depth depth' with
  | nil => exact h
  | cons c text ih =>
    cases quoted with
    | none => exact ih (bracket_mono c h)
    | some quoted => exact ih h

/-- Whatever the count, a harmless comment does not lower it. -/
theorem Harmless.le_run {comment : List Char} (h : Harmless comment) (depth : Nat) :
    (Guard.run ⟨none, depth⟩ comment).quoted = none ∧ depth ≤ (Guard.run ⟨none, depth⟩ comment).depth := by
  have hbalance := balance_le_run none depth comment
  have hnonneg := h.2
  exact ⟨(run_quoted none depth comment).trans h.1, by omega⟩

end run

/-- The guard behind a reader: in step with it outside comments, and inside one where the comment's body has led it. -/
structure Follows (body : List Char) (g : Guard) (s : Scan) : Prop where
  fresh : s.mode.inComment = false → body = []
  led : ∃ depth, s.depth ≤ depth ∧ g = Guard.run ⟨s.mode.quoted, depth⟩ body

section follows
variable {body : List Char} {g : Guard} {s : Scan} {c : Char}

/-- Outside comments the guard reads strings as the reader does. -/
theorem quoted_next {mode : Mode} (h : mode.inComment = false) (c : Char) : (mode.next c).quoted = nextQuoted mode.quoted c := by
  cases mode with
  | code => exact Mode.quoted_nextCode c
  | slash =>
    by_cases hline : c = '/'
    · subst hline
      rfl
    by_cases hblock : c = '*'
    · subst hblock
      rfl
    rw [Mode.next, if_neg hline, if_neg hblock]
    exact Mode.quoted_nextCode c
  | string quote escaped =>
    cases escaped with
    | true => rfl
    | false =>
      change (if c = '\\' then Mode.string quote true else if c = quote.char then .code else .string quote false).quoted =
        if c = '\\' then some (quote, true) else if c = quote.char then none else some (quote, false)
      by_cases hescape : c = '\\'
      · rw [if_pos hescape, if_pos hescape]
        rfl
      by_cases hclose : c = quote.char
      · rw [if_neg hescape, if_neg hescape, if_pos hclose, if_pos hclose]
        rfl
      · rw [if_neg hescape, if_neg hescape, if_neg hclose, if_neg hclose]
        rfl
  | line => cases h
  | block => cases h
  | star => cases h

theorem inCode_eq {mode : Mode} (h : mode.inComment = false) : mode.inCode = mode.quoted.isNone := by
  cases mode with
  | code => rfl
  | slash => rfl
  | string _ _ => rfl
  | line => cases h
  | block => cases h
  | star => cases h

/-- Outside comments the guard counts every bracket that the reader does. -/
theorem Follows.outside (h : Follows body g s) (hmode : s.mode.inComment = false) (c : Char) :
    Follows [] (g.step c) (s.step c) ∧ (s.step c).depth ≤ (g.step c).depth := by
  obtain ⟨depth, hdepth, hled⟩ := h.led
  rw [h.fresh hmode] at hled
  have hg : g = ⟨s.mode.quoted, depth⟩ := hled
  have hle : (s.step c).depth ≤ (g.step c).depth := by
    rw [hg, Scan.step, Guard.step, inCode_eq hmode]
    dsimp only
    split
    · exact bracket_mono c hdepth
    · exact hdepth
  refine ⟨⟨fun _ => rfl, (g.step c).depth, hle, ?_⟩, hle⟩
  change g.step c = ⟨(s.mode.next c).quoted, (g.step c).depth⟩
  rw [quoted_next hmode, hg]
  rfl

theorem step_inComment (hmode : s.mode.inComment) (c : Char) : s.step c = ⟨s.mode.next c, s.depth⟩ := by
  rw [Scan.step, Mode.inCode_of_inComment hmode]
  rfl

theorem Follows.inside (h : Follows body g s) (hmode : s.mode.inComment) (hnext : (s.mode.next c).inComment) :
    Follows (body ++ [c]) (g.step c) (s.step c) := by
  obtain ⟨depth, hdepth, hled⟩ := h.led
  rw [step_inComment hmode]
  refine ⟨fun hout => absurd hnext (by simp [hout]), depth, hdepth, ?_⟩
  change g.step c = Guard.run ⟨(s.mode.next c).quoted, depth⟩ (body ++ [c])
  rw [Mode.quoted_of_inComment hnext, run_append, ← Mode.quoted_of_inComment hmode, ← hled]
  rfl

/-- A harmless comment gives the guard back outside strings. -/
theorem Follows.leaves (h : Follows body g s) (hmode : s.mode.inComment) (hnext : (s.mode.next c).inComment = false)
    (harmless : Harmless (body ++ [c])) : Follows [] (g.step c) (s.step c) := by
  obtain ⟨depth, hdepth, hled⟩ := h.led
  have hrun : g.step c = Guard.run ⟨none, depth⟩ (body ++ [c]) := by
    rw [run_append, ← Mode.quoted_of_inComment hmode, ← hled]
    rfl
  obtain ⟨hquoted, hle⟩ := harmless.le_run depth
  rw [← hrun] at hquoted hle
  rw [step_inComment hmode, Mode.next_eq_code hmode hnext]
  refine ⟨fun _ => rfl, (g.step c).depth, hdepth.trans hle, ?_⟩
  change g.step c = ⟨none, (g.step c).depth⟩
  rw [← hquoted]

/-- While the guard counts no more than the limit the reader has no more open. -/
theorem Follows.within {limit : Nat} {text : List Char} (h : Follows body g s) (hs : s.depth ≤ limit)
    (harmless : ∀ comment ∈ commentsFrom s.mode body text, Harmless comment)
    (hguard : ∀ before, before <+: text → (g.run before).depth ≤ limit) :
    ∀ before, before <+: text → (before.foldl Scan.step s).depth ≤ limit := by
  induction text generalizing body g s with
  | nil =>
    intro before hbefore
    rw [List.prefix_nil.mp hbefore]
    exact hs
  | cons c text ih =>
    have hstep : (s.step c).depth ≤ limit ∧ ∃ body', Follows body' (g.step c) (s.step c) ∧
        ∀ comment ∈ commentsFrom (s.step c).mode body' text, Harmless comment := by
      rw [commentsFrom] at harmless
      by_cases hmode : s.mode.inComment = true
      · have hdepth : (s.step c).depth ≤ limit := by
          rw [step_inComment hmode]
          exact hs
        rw [if_pos hmode] at harmless
        by_cases hnext : (s.mode.next c).inComment = true
        · rw [if_pos hnext] at harmless
          exact ⟨hdepth, body ++ [c], h.inside hmode hnext, harmless⟩
        · rw [if_neg hnext, List.forall_mem_cons] at harmless
          exact ⟨hdepth, [], h.leaves hmode (Bool.not_eq_true _ ▸ hnext) harmless.1, harmless.2⟩
      · rw [if_neg hmode] at harmless
        obtain ⟨hfollows, hle⟩ := h.outside (Bool.not_eq_true _ ▸ hmode) c
        exact ⟨hle.trans (hguard [c] (List.prefix_append [c] text)), [], hfollows, harmless⟩
    obtain ⟨hdepth, body', hfollows, hrest⟩ := hstep
    intro before hbefore
    rcases List.prefix_cons_iff.mp hbefore with rfl | ⟨rest, rfl, hrest'⟩
    · exact hs
    · refine ih hfollows hdepth hrest (fun before hbefore => ?_) rest hrest'
      exact hguard (c :: before) (List.prefix_cons_iff.mpr (.inr ⟨before, rfl, hbefore⟩))

end follows

/-- The guard is conservative: no reader of a text that it lets pass has more brackets open than the limit. -/
def Conservative (text : List Char) (limit : Nat) : Prop :=
  jsonDepthExceeds text limit = false → ∀ before, before <+: text → (scan before).depth ≤ limit

/-- On texts with harmless comments it is. -/
theorem conservative_of_harmless {text : List Char} (harmless : ∀ comment ∈ comments text, Harmless comment) (limit : Nat) :
    Conservative text limit := by
  intro hguard
  have hstart : Follows [] ⟨none, 0⟩ ⟨.code, 0⟩ := ⟨fun _ => rfl, 0, le_rfl, rfl⟩
  exact hstart.within (Nat.zero_le limit) harmless (jsonDepthExceeds_eq_false_iff.mp hguard)

/-! Every other comment takes the guard out of step for good, so that brackets after it or around it go uncounted. -/

/-- A comment with what opens it. -/
def written (start : Mode) (comment : List Char) : List Char := '/' :: (if start = .line then '/' else '*') :: comment

section written
variable {start : Mode} {comment : List Char}

theorem run_written (start : Mode) (comment : List Char) (depth : Nat) :
    Guard.run ⟨none, depth⟩ (written start comment) = Guard.run ⟨none, depth⟩ comment := by
  unfold written
  split <;> rfl

theorem comments_written (closes : Closes start comment) (text : List Char) :
    comments (written start comment ++ text) = comment :: comments text := by
  rcases closes.opens with rfl | rfl
  · exact closes.comments text
  · exact closes.comments text

theorem scan_written (closes : Closes start comment) (depth : Nat) :
    (written start comment).foldl Scan.step ⟨.code, depth⟩ = ⟨.code, depth⟩ := by
  rcases closes.opens with rfl | rfl
  · exact closes.scan depth
  · exact closes.scan depth

end written

theorem prefix_append_cases {α : Type} {before a b : List α} (h : before <+: a ++ b) :
    before <+: a ∨ ∃ rest, before = a ++ rest ∧ rest <+: b := by
  rcases List.prefix_or_prefix_of_prefix h (List.prefix_append a b) with hbefore | ⟨rest, rfl⟩
  · exact .inl hbefore
  · exact .inr ⟨rest, rfl, (List.prefix_append_right_inj a).mp h⟩

section openings

/-- In a string the guard counts no bracket. -/
theorem run_openings (quoted : Quote × Bool) (depth n : Nat) : (Guard.run ⟨some quoted, depth⟩ (List.replicate n '[')).depth = depth := by
  induction n generalizing quoted with
  | zero => rfl
  | succ n ih =>
    obtain ⟨quote, escaped⟩ := quoted
    have hnext : nextQuoted (some (quote, escaped)) '[' = some (quote, false) := by
      cases quote <;> cases escaped <;> decide
    rw [List.replicate_succ, run_string, hnext]
    exact ih _

theorem scan_openings (depth n : Nat) : (List.replicate n '[').foldl Scan.step ⟨.code, depth⟩ = ⟨.code, depth + n⟩ := by
  induction n generalizing depth with
  | zero => rfl
  | succ n ih =>
    rw [List.replicate_succ, List.foldl_cons]
    exact (ih (depth + 1)).trans (by rw [Nat.add_right_comm, Nat.add_assoc])

theorem comments_openings (n : Nat) : comments (List.replicate n '[') = [] := by
  induction n with
  | zero => rfl
  | succ n ih => exact ih

end openings

/-- After a comment that leaves a string open. -/
theorem unclosed_breaks {start : Mode} {comment : List Char} (closes : Closes start comment) {quoted : Quote × Bool}
    (hopen : comment.foldl nextQuoted none = some quoted) :
    ∃ text, (∀ comment' ∈ comments text, comment' = comment) ∧ ∃ limit, ¬ Conservative text limit := by
  let opened := written start comment
  let text := opened ++ List.replicate (opened.length + 1) '['
  refine ⟨text, ?_, opened.length, fun hconservative => ?_⟩
  · rw [comments_written closes, comments_openings]
    simp
  have hguard : jsonDepthExceeds text opened.length = false := by
    refine jsonDepthExceeds_eq_false_iff.mpr fun before hbefore => ?_
    have hlen := run_le none 0 opened
    rcases prefix_append_cases hbefore with hshort | ⟨rest, rfl, hrest⟩
    · have := run_le none 0 before
      have := hshort.length_le
      omega
    · have hquoted : (Guard.run ⟨none, 0⟩ opened).quoted = some quoted := by
        rw [run_written, run_quoted, hopen]
      obtain ⟨hcount, heq⟩ := List.prefix_replicate_iff.mp hrest
      have hstay : (Guard.run (Guard.run ⟨none, 0⟩ opened) rest).depth = (Guard.run ⟨none, 0⟩ opened).depth := by
        rw [heq]
        cases hrun : Guard.run ⟨none, 0⟩ opened with
        | mk quoted' depth =>
          rw [hrun] at hquoted
          cases hquoted
          exact run_openings _ _ _
      rw [run_append, hstay]
      omega
  have hdeep := hconservative hguard text (List.prefix_refl text)
  rw [scan, List.foldl_append, scan_written closes, scan_openings] at hdeep
  simp only at hdeep
  omega

/-- A bracket and the comment, so many times. -/
def rounds (start : Mode) (comment : List Char) : Nat → List Char
  | 0 => []
  | n + 1 => '[' :: written start comment ++ rounds start comment n

section rounds
variable {start : Mode} {comment : List Char}

theorem comments_rounds (closes : Closes start comment) (n : Nat) : ∀ comment' ∈ comments (rounds start comment n), comment' = comment := by
  induction n with
  | zero => simp [rounds, comments, commentsFrom]
  | succ n ih =>
    have hround : comments (rounds start comment (n + 1)) = comment :: comments (rounds start comment n) := comments_written closes _
    rw [hround]
    exact List.forall_mem_cons.mpr ⟨rfl, ih⟩

/-- The reader has one more bracket open after each. -/
theorem scan_rounds (closes : Closes start comment) (depth n : Nat) :
    (rounds start comment n).foldl Scan.step ⟨.code, depth⟩ = ⟨.code, depth + n⟩ := by
  induction n generalizing depth with
  | zero => rfl
  | succ n ih =>
    rw [rounds, List.foldl_append, List.foldl_cons, show Scan.step ⟨.code, depth⟩ '[' = ⟨.code, depth + 1⟩ from rfl,
      scan_written closes, ih]
    exact congrArg (Scan.mk .code) (by omega)

/-- The guard takes the bracket back. -/
theorem run_round (start : Mode) (hclosed : comment.foldl nextQuoted none = none) (hbalance : balance none comment < 0) {depth : Nat}
    (hdepth : depth ≤ comment.length) :
    ∃ depth' ≤ comment.length, Guard.run ⟨none, depth⟩ ('[' :: written start comment) = ⟨none, depth'⟩ := by
  have hround : Guard.run ⟨none, depth⟩ ('[' :: written start comment) = Guard.run ⟨none, depth + 1⟩ comment :=
    run_written start comment (depth + 1)
  have hquoted := run_quoted none (depth + 1) comment
  have hmono : (Guard.run ⟨none, depth + 1⟩ comment).depth ≤ (Guard.run ⟨none, comment.length + 1⟩ comment).depth :=
    run_mono (Nat.add_le_add_right hdepth 1) comment
  have hexact : ((Guard.run ⟨none, comment.length + 1⟩ comment).depth : Int) = (comment.length + 1 : Nat) + balance none comment :=
    run_eq_balance (Nat.le_succ comment.length)
  rw [hclosed] at hquoted
  rw [hround]
  cases hrun : Guard.run ⟨none, depth + 1⟩ comment with
  | mk quoted depth' =>
    rw [hrun] at hquoted hmono
    cases hquoted
    change depth' ≤ _ at hmono
    exact ⟨depth', by omega, rfl⟩

theorem run_rounds (start : Mode) (hclosed : comment.foldl nextQuoted none = none) (hbalance : balance none comment < 0) {depth : Nat}
    (hdepth : depth ≤ comment.length) (n : Nat) :
    ∀ before, before <+: rounds start comment n → (Guard.run ⟨none, depth⟩ before).depth ≤ 2 * comment.length + 3 := by
  induction n generalizing depth with
  | zero =>
    intro before hbefore
    rw [List.prefix_nil.mp hbefore]
    change depth ≤ _
    omega
  | succ n ih =>
    intro before hbefore
    rcases prefix_append_cases hbefore with hshort | ⟨rest, rfl, hrest⟩
    · have hrun := run_le none depth before
      have hlen := hshort.length_le
      simp only [written, List.length_cons] at hlen
      omega
    · obtain ⟨depth', hdepth', hround⟩ := run_round start hclosed hbalance hdepth
      rw [run_append, hround]
      exact ih hdepth' rest hrest

end rounds

/-- Around comments that close more brackets than they open. -/
theorem closing_breaks {start : Mode} {comment : List Char} (closes : Closes start comment)
    (hclosed : comment.foldl nextQuoted none = none) (hbalance : balance none comment < 0) :
    ∃ text, (∀ comment' ∈ comments text, comment' = comment) ∧ ∃ limit, ¬ Conservative text limit := by
  refine ⟨rounds start comment (2 * comment.length + 4), comments_rounds closes _, 2 * comment.length + 3, fun hconservative => ?_⟩
  have hguard := jsonDepthExceeds_eq_false_iff.mpr (run_rounds start hclosed hbalance (Nat.zero_le _) (2 * comment.length + 4))
  have hdeep := hconservative hguard _ (List.prefix_refl _)
  rw [scan, scan_rounds closes] at hdeep
  simp only at hdeep
  omega

/-- The guard is conservative on every text whose comments are harmless, and on the texts of no other comment. -/
theorem conservative_exactly (text : List Char) :
    ((∀ comment ∈ comments text, Harmless comment) → ∀ limit, Conservative text limit) ∧
      ∀ comment ∈ comments text, ¬ Harmless comment →
        ∃ text', (∀ comment' ∈ comments text', comment' = comment) ∧ ∃ limit, ¬ Conservative text' limit := by
  refine ⟨fun harmless limit => conservative_of_harmless harmless limit, fun comment hcomment hharm => ?_⟩
  obtain ⟨start, closes⟩ := closes_of_mem_comments hcomment
  cases hopen : comment.foldl nextQuoted none with
  | some quoted => exact unclosed_breaks closes hopen
  | none => exact closing_breaks closes hopen (not_le.mp fun hnonneg => hharm ⟨hopen, hnonneg⟩)

/-- A quote in a comment, and brackets after it. -/
def quotedComment (n : Nat) : List Char := ['/', '*', '\'', '*', '/'] ++ List.replicate n '['

/-- The guard takes the brackets for a string's. -/
theorem quotedComment_passes (n limit : Nat) : jsonDepthExceeds (quotedComment n) limit = false := by
  refine jsonDepthExceeds_eq_false_iff.mpr fun before hbefore => ?_
  have hcomment : ∀ before ∈ ['/', '*', '\'', '*', '/'].inits, (Guard.run ⟨none, 0⟩ before).depth = 0 := by decide
  rcases prefix_append_cases hbefore with hshort | ⟨rest, rfl, hrest⟩
  · rw [hcomment before ((List.mem_inits _ _).mpr hshort)]
    exact Nat.zero_le limit
  · have hopen : Guard.run ⟨none, 0⟩ ['/', '*', '\'', '*', '/'] = ⟨some (.single, false), 0⟩ := rfl
    rw [run_append, hopen, (List.prefix_replicate_iff.mp hrest).2, run_openings]
    exact Nat.zero_le limit

theorem scan_quotedComment (n : Nat) : (scan (quotedComment n)).depth = n := by
  have hcomment : ['/', '*', '\'', '*', '/'].foldl Scan.step ⟨.code, 0⟩ = ⟨.code, 0⟩ := rfl
  rw [scan, quotedComment, List.foldl_append, hcomment, scan_openings, Nat.zero_add]

/-- A hundred thousand brackets open, and none for the guard. -/
theorem quotedComment_deep : ¬ Conservative (quotedComment 100000) maxJsonDepth := by
  intro hconservative
  have hdeep := hconservative (quotedComment_passes 100000 maxJsonDepth) _ (List.prefix_refl _)
  rw [scan_quotedComment] at hdeep
  exact absurd hdeep (by decide)

/-- What the recursive parser is given has passed the guard. -/
theorem parseRequest_guarded {ν : Type} {R R' : BodyReaders ν} (hgzip : R'.gzip = R.gzip) (hserde : R'.serdeJson = R.serdeJson)
    (hjson5 : ∀ text, jsonDepthExceeds text maxJsonDepth = false → R'.json5 text = R.json5 text) (contentType compression : Option (List Char))
    (body : List UInt8) : parseRequest R' contentType compression body = parseRequest R contentType compression body := by
  unfold parseRequest
  rw [hgzip, hserde]
  refine bind_congr fun text => ?_
  by_cases hguard : jsonDepthExceeds text maxJsonDepth = true
  · rw [if_pos hguard, if_pos hguard]
    rfl
  · rw [if_neg hguard, if_neg hguard, hjson5 text (Bool.not_eq_true _ ▸ hguard)]

end Hoglet.Flags
