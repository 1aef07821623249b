import Hoglet.Query.Relation

/-! When the promoted columns mean the same on files that differ in their columns, and on what is merged from them. -/
namespace Hoglet.Query
open Json Capture Hoglet.Lake

section lists

/-- A cell of a row made of a table whose columns are all different. -/
private theorem lookup_cells {table : List (String × String)} (hunique : (table.map Prod.fst).Nodup)
    (value : String × String → Option String) {p : String × String} (hp : p ∈ table) :
    (table.map fun q => (q.1, value q)).lookup p.1 = some (value p) := by
  induction table with
  | nil => exact absurd hp List.not_mem_nil
  | cons q table ih =>
    rw [List.map_cons, List.nodup_cons] at hunique
    rw [List.map_cons, List.lookup_cons]
    rcases List.mem_cons.mp hp with rfl | hp
    · rw [beq_self_eq_true]
    · have hne : p.1 ≠ q.1 := fun heq => hunique.1 (heq ▸ List.mem_map_of_mem hp)
      rw [beq_false_of_ne hne]
      exact ih hunique.2 hp

private theorem lookup_absent {cells : List (String × Option String)} {column : String}
    (h : column ∉ cells.map Prod.fst) : cells.lookup column = none := by
  induction cells with
  | nil => rfl
  | cons cell cells ih =>
    rw [List.map_cons, List.mem_cons, not_or] at h
    rw [List.lookup_cons, beq_false_of_ne h.1]
    exact ih h.2

end lists

theorem promoted_columns_nodup : (promoted.map Prod.fst).Nodup := by decide

theorem promoted_keys_valid : ∀ p ∈ promoted, validateKey p.2 = .ok () := by decide

theorem unescapePointer_escape (key : List Char) :
    unescapePointer (escapePointer key) = key ∧ '/' ∉ escapePointer key := by
  induction key with
  | nil => exact ⟨rfl, List.not_mem_nil⟩
  | cons c key ih =>
    obtain ⟨hback, hfree⟩ := ih
    rw [escapePointer, List.flatMap_cons, ← escapePointer]
    by_cases htilde : c = '~'
    · subst htilde
      exact ⟨congrArg ('~' :: ·) hback, fun h => hfree (by simpa using h)⟩
    · by_cases hslash : c = '/'
      · subst hslash
        exact ⟨congrArg ('/' :: ·) hback, fun h => hfree (by simpa using h)⟩
      · rw [if_neg htilde, if_neg hslash]
        refine ⟨?_, fun h => hfree (by simpa [Ne.symm hslash] using h)⟩
        rw [List.singleton_append, unescapePointer, hback]
        · exact fun _ h => absurd h htilde
        · exact fun _ h => absurd h htilde

section derived
variable {ν : Type} (N : Numbers ν) (texts : JsonTexts ν)

/-- A pointer built from a key leads to that key's member. -/
theorem jsonMember_pointer (properties : Map ν) (key : String) :
    jsonMember properties ('/' :: escapePointer key.toList) = properties.get key := by
  obtain ⟨hback, hfree⟩ := unescapePointer_escape key.toList
  rw [jsonMember, if_neg hfree, hback, String.ofList_toList]

/-- What a derived column holds for a member. -/
def derivedText : Option (Value ν) → Option String
  | some (.string text) => nullIf (some text) ""
  | some (.number number) => nullIf (some (texts.number number)) ""
  | some (.bool flag) => some (if flag then "true" else "false")
  | _ => none

theorem derivedColumn_ok {key : String} (hkey : validateKey key = .ok ()) (properties : Map ν) :
    derivedColumn texts properties key = .ok (derivedText texts (properties.get key)) := by
  have hpointer : jsonPointerLiteral key = .ok ('/' :: escapePointer key.toList) := by rw [jsonPointerLiteral, hkey]; rfl
  rw [derivedColumn, hpointer]
  change Except.ok _ = _
  rw [isContainer, jsonExtractString, jsonMember_pointer]
  cases properties.get key with
  | none => rfl
  | some value =>
    cases value with
    | bool flag => cases flag <;> rfl
    | _ => rfl

private theorem number_text_ne (n : ν) : String.ofList (N.text n) ≠ "" := by
  obtain ⟨c, cs, htext, -⟩ := N.text_start n
  rw [htext]
  intro h
  have := congrArg String.toList h
  rw [String.toList_ofList] at this
  cases this

/-- The derived column is the promoted one but for how a number is printed. -/
theorem derivedText_eq_iff (properties : Map ν) (key : String) :
    derivedText texts (properties.get key) = promotedValue N properties key ↔
      ∀ n, properties.get key = some (.number n) → texts.number n = String.ofList (N.text n) := by
  unfold derivedText promotedValue
  cases hget : properties.get key with
  | none => simp
  | some value =>
    cases value with
    | string text => simp [nullIf]
    | number n =>
      simp only [nullIf, Option.some.injEq, Value.number.injEq, forall_eq']
      by_cases hempty : texts.number n = ""
      · rw [if_pos hempty, hempty]
        exact ⟨fun h => absurd h (by simp), fun h => absurd h.symm (number_text_ne N n)⟩
      · rw [if_neg hempty, Option.some.injEq]
    | _ => simp

end derived

section rows
variable {ν U : Type} (N : Numbers ν) (texts : JsonTexts ν)

@[simp] theorem column_under (columns : List String) (row : ParquetRow ν U) (column : String) :
    (row.under columns).column column = if column ∈ columns then row.column column else none := by
  rw [ParquetRow.column, ParquetRow.under]
  by_cases hmem : column ∈ columns
  · rw [if_pos hmem]
    induction columns with
    | nil => exact absurd hmem List.not_mem_nil
    | cons c columns ih =>
      rw [List.map_cons, List.lookup_cons]
      by_cases heq : column = c
      · subst heq
        rw [beq_self_eq_true]
        rfl
      · rw [beq_false_of_ne heq]
        exact ih ((List.mem_cons.mp hmem).resolve_left heq)
  · rw [if_neg hmem, lookup_absent (by simpa using hmem)]
    rfl

theorem mem_unionColumns {files : List (ParquetFile ν U)} {column : String} :
    column ∈ unionColumns files ↔ ∃ file ∈ files, column ∈ file.columns := by
  rw [unionColumns, List.mem_eraseDups, List.mem_flatMap]

theorem mem_readUnion {files : List (ParquetFile ν U)} {row : ParquetRow ν U} :
    row ∈ readUnion files ↔ ∃ file ∈ files, ∃ r ∈ file.rows, r.under (unionColumns files) = row := by
  simp only [readUnion, List.mem_flatMap, List.mem_map]

/-- What the relation over some files shows of a row in a promoted column. -/
def exposed (columns : List String) (row : ParquetRow ν U) (p : String × String) : Option String :=
  if p.1 ∈ columns then row.column p.1 else derivedText texts (row.properties.get p.2)

private theorem present_fromColumns (columns : List String) {p : String × String} {index : Nat}
    (h : (p, index) ∈ promoted.zipIdx) :
    (EventSchema.fromColumns columns).promotedPresent.getD index false = decide (p.1 ∈ columns) := by
  obtain ⟨hlt, hget⟩ := List.mem_zipIdx' h
  rw [EventSchema.fromColumns, List.getD_eq_getElem?_getD, List.getElem?_map, List.getElem?_eq_getElem hlt, ← hget]
  change columns.any (fun name => decide (name = p.1)) = _
  rw [Bool.eq_iff_iff, List.any_eq_true, decide_eq_true_eq]
  simp only [decide_eq_true_eq, exists_eq_right]

theorem promotedCells_ok (columns : List String) (row : ParquetRow ν U) :
    promotedCells texts (.fromColumns columns) row = .ok (promoted.map fun p => (p.1, exposed texts columns row p)) := by
  have hcell : ∀ q ∈ promoted.zipIdx, promotedCell texts (.fromColumns columns) row q.2 q.1.1 q.1.2 =
      .ok (q.1.1, exposed texts columns row q.1) := fun q hq => by
    obtain ⟨p, index⟩ := q
    rw [promotedCell, present_fromColumns columns hq, exposed]
    by_cases hmem : p.1 ∈ columns
    · rw [decide_eq_true hmem, if_pos hmem, if_pos rfl]
    · have hp : p ∈ promoted := List.fst_mem_of_mem_zipIdx hq
      rw [decide_eq_false hmem, if_neg hmem, derivedColumn_ok texts (promoted_keys_valid p hp)]
      rfl
  rw [promotedCells]
  refine (mapM_ok hcell).trans (congrArg Except.ok ?_)
  conv_rhs => rw [← List.zipIdx_map_fst 0 promoted, List.map_map]
  rfl

private theorem leftJoin_ne_nil (table : List (String × String)) (key : String) : leftJoin table key ≠ [] := by
  rw [leftJoin]
  split
  · exact List.cons_ne_nil _ _
  · rename_i hfound
    exact fun h => hfound (List.map_eq_nil_iff.mp h)

private theorem leftJoins_ne_nil (tables : List (List (String × String))) (key : String) : leftJoins tables key ≠ [] := by
  induction tables with
  | nil => exact List.cons_ne_nil _ _
  | cons table rest ih =>
    obtain ⟨value, hvalue⟩ := List.exists_mem_of_ne_nil _ (leftJoin_ne_nil table key)
    obtain ⟨values, hvalues⟩ := List.exists_mem_of_ne_nil _ ih
    rw [leftJoins]
    exact List.ne_nil_of_mem (List.mem_flatMap.mpr ⟨value, hvalue, List.mem_map_of_mem hvalues⟩)

variable (s : Source ν U) (overrides : List ((String × String) × String)) (withPerson : Bool)

/-- Joins lose no row and change neither its properties nor its promoted columns. -/
theorem joinedRows_spec (row : ParquetRow ν U) (cells : List (String × Option String)) :
    joinedRows s overrides withPerson row cells ≠ [] ∧
      ∀ r ∈ joinedRows s overrides withPerson row cells, r.properties = row.properties ∧ r.promoted = cells := by
  rw [joinedRows]
  constructor
  · have hjoin (known : List (String × String)) :
        (if withPerson then leftJoin known row.distinctId else [none]) ≠ [] := by
      split
      · exact leftJoin_ne_nil known row.distinctId
      · exact List.cons_ne_nil _ _
    obtain ⟨o, ho⟩ := List.exists_mem_of_ne_nil _ (hjoin _)
    obtain ⟨persons, hpersons⟩ := List.exists_mem_of_ne_nil _ (leftJoins_ne_nil (s.personKeys.map Prod.snd) (o.getD row.distinctId))
    exact List.ne_nil_of_mem (List.mem_flatMap.mpr ⟨o, ho, List.mem_map_of_mem hpersons⟩)
  · intro r hr
    obtain ⟨o, -, hr⟩ := List.mem_flatMap.mp hr
    obtain ⟨persons, -, rfl⟩ := List.mem_map.mp hr
    exact ⟨rfl, rfl⟩

/-- A row of the relation that shows a row of the files. -/
def Shows (files : List (ParquetFile ν U)) (row : ParquetRow ν U) (r : EventRow ν U) : Prop :=
  r.properties = row.properties ∧ r.promoted = promoted.map fun p => (p.1, exposed texts (unionColumns files) row p)

/-- The relation over some files is never refused, its rows show the files' rows, and it shows all of those in range. -/
theorem relation_ok (files : List (ParquetFile ν U)) (projectId : String) (personKeys : List (String × List (String × String)))
    (fromUs toUs : Option Int) :
    ∃ rows, (sourceOf files projectId personKeys).relation texts overrides fromUs toUs withPerson = .ok rows ∧
      (∀ r ∈ rows, ∃ row ∈ readUnion files, Shows texts files row r) ∧
      ∀ row ∈ readUnion files, inRange fromUs toUs row → ∃ r ∈ rows, Shows texts files row r := by
  rw [Source.relation]
  by_cases hempty : files = []
  · subst hempty
    exact ⟨[], rfl, fun r hr => absurd hr List.not_mem_nil, fun row hrow => absurd hrow List.not_mem_nil⟩
  · have hisEmpty : files.isEmpty = false := by simpa using hempty
    simp only [sourceOf, hisEmpty, Bool.false_eq_true, if_false, promotedCells_ok]
    generalize hsource : Source.mk files _ projectId personKeys = s
    generalize (withPerson || !personKeys.isEmpty) = withPerson
    rw [mapM_ok (g := fun row => joinedRows s overrides withPerson row
      (promoted.map fun p => (p.1, exposed texts (unionColumns files) row p))) (by exact fun _ _ => rfl)]
    refine ⟨_, rfl, fun r hr => ?_, fun row hrow hrange => ?_⟩
    · obtain ⟨rows, hrows, hr⟩ := List.mem_flatten.mp hr
      obtain ⟨row, hrow, rfl⟩ := List.mem_map.mp hrows
      exact ⟨row, (List.mem_filter.mp hrow).1, (joinedRows_spec s overrides withPerson row _).2 r hr⟩
    · obtain ⟨hne, hall⟩ := joinedRows_spec s overrides withPerson row
        (promoted.map fun p => (p.1, exposed texts (unionColumns files) row p))
      obtain ⟨r, hr⟩ := List.exists_mem_of_ne_nil _ hne
      exact ⟨r, List.mem_flatten.mpr ⟨_, List.mem_map_of_mem (List.mem_filter.mpr ⟨hrow, hrange⟩), hr⟩, hall r hr⟩

theorem column_of_shows {files : List (ParquetFile ν U)} {row : ParquetRow ν U} {r : EventRow ν U}
    (h : Shows texts files row r) {p : String × String} (hp : p ∈ promoted) :
    r.column p.1 = exposed texts (unionColumns files) row p := by
  rw [EventRow.column, h.2, lookup_cells promoted_columns_nodup _ hp]
  rfl

end rows

section agree
variable {ν U : Type} (N : Numbers ν) (texts : JsonTexts ν)

/-- A file whose columns hold what promotion gives its own rows, whichever of the columns it has. -/
structure EventFile (U : Type) where
  file : ParquetFile ν U
  holds : ∀ row ∈ file.rows, ∀ p ∈ promoted,
    row.column p.1 = if p.1 ∈ file.columns then promotedValue N row.properties p.2 else none

/-- What a writer writes that knows some of the promoted columns. -/
def EventFile.written (table : List (String × String)) (htable : table.Sublist promoted) (events : List (CapturedEvent ν U)) :
    EventFile N U where
  file := toRecordBatch N table events
  holds row hrow p hp := by
    obtain ⟨e, -, rfl⟩ := List.mem_map.mp hrow
    have hunique : (table.map Prod.fst).Nodup := promoted_columns_nodup.sublist (htable.map _)
    rw [ParquetRow.column]
    by_cases hmem : p.1 ∈ table.map Prod.fst
    · obtain ⟨q, hq, heq⟩ := List.mem_map.mp hmem
      obtain rfl : q = p := List.inj_on_of_nodup_map promoted_columns_nodup (htable.subset hq) hp heq
      rw [if_pos (by exact hmem)]
      exact congrArg Option.join (lookup_cells hunique (fun q => promotedValue N e.properties q.2) hq)
    · rw [if_neg (by exact hmem)]
      refine congrArg Option.join (lookup_absent fun hin => hmem ?_)
      rwa [List.map_map] at hin

/-- The text that a filter or a breakdown reads of an event's property, by the event alone. -/
def eventText (properties : Map ν) (key : String) : Except QueryError (Option String) := do
  validateKey key
  if (promotedColumn key).isSome then return promotedValue N properties key
  else return jsonExtractString texts properties (← jsonPointerLiteral key)

/-- Every query over the files finds the promoted values, and so the same texts as over any other files. -/
def Exposes (files : List (ParquetFile ν U)) : Prop :=
  ∀ projectId personKeys overrides fromUs toUs withPerson, ∃ rows,
    (sourceOf files projectId personKeys).relation texts overrides fromUs toUs withPerson = .ok rows ∧
      ∀ row ∈ rows, (∀ p ∈ promoted, row.column p.1 = promotedValue N row.properties p.2) ∧
        ∀ key, (sourceOf files projectId personKeys).propertyText texts row .event key = eventText N texts row.properties key

/-- The promoted columns mean the same on the files and on whatever is merged from them. -/
def SameMeaning (files : List (ParquetFile ν U)) : Prop :=
  Exposes N texts files ∧ ∀ destination, MergeSql files destination → Exposes N texts [destination] ∧
    ∀ row ∈ destination.rows, ∀ p ∈ promoted, p.1 ∈ destination.columns →
      row.column p.1 = promotedValue N row.properties p.2

/-- A column that some of the files have is one the others' events have no value for, and a column that none has is one
whose numbers DuckDB prints as the promotion does. -/
structure Uniform (files : List (ParquetFile ν U)) : Prop where
  stored : ∀ p ∈ promoted, ∀ newer ∈ files, p.1 ∈ newer.columns → ∀ older ∈ files, p.1 ∉ older.columns →
    ∀ row ∈ older.rows, promotedValue N row.properties p.2 = none
  derived : ∀ p ∈ promoted, (∀ file ∈ files, p.1 ∉ file.columns) → ∀ file ∈ files, ∀ row ∈ file.rows,
    ∀ n, row.properties.get p.2 = some (.number n) → texts.number n = String.ofList (N.text n)

/-- What the relation shows of a file's row. -/
private theorem exposed_under {files : List (EventFile N U)} {f : EventFile N U} (hf : f ∈ files) {row : ParquetRow ν U}
    (hrow : row ∈ f.file.rows) {p : String × String} (hp : p ∈ promoted) :
    exposed texts (unionColumns (files.map EventFile.file)) (row.under (unionColumns (files.map EventFile.file))) p =
      if p.1 ∈ f.file.columns then promotedValue N row.properties p.2
      else if ∃ newer ∈ files, p.1 ∈ newer.file.columns then none else derivedText texts (row.properties.get p.2) := by
  have hunion : p.1 ∈ unionColumns (files.map EventFile.file) ↔ ∃ newer ∈ files, p.1 ∈ newer.file.columns := by
    simp only [mem_unionColumns, List.mem_map, exists_exists_and_eq_and]
  by_cases hmem : p.1 ∈ f.file.columns
  · have hin : p.1 ∈ unionColumns (files.map EventFile.file) := hunion.mpr ⟨f, hf, hmem⟩
    rw [exposed, if_pos hin, column_under, if_pos hin, f.holds row hrow p hp]
    simp only [if_pos hmem]
  · rw [if_neg hmem, exposed]
    by_cases hin : p.1 ∈ unionColumns (files.map EventFile.file)
    · rw [if_pos hin, column_under, if_pos hin, f.holds row hrow p hp, if_neg hmem, if_pos (hunion.mp hin)]
    · rw [if_neg hin, if_neg (fun h => hin (hunion.mpr h))]
      rfl

private theorem propertyText_of_promoted (s : Source ν U) {row : EventRow ν U}
    (h : ∀ p ∈ promoted, row.column p.1 = promotedValue N row.properties p.2) (key : String) :
    s.propertyText texts row .event key = eventText N texts row.properties key := by
  rw [Source.propertyText, eventText]
  cases validateKey key with
  | error e => rfl
  | ok u =>
    cases hcolumn : promotedColumn key with
    | none => rfl
    | some column =>
      obtain ⟨p, hfind, rfl⟩ := Option.map_eq_some_iff.mp hcolumn
      have hfound := List.find?_some hfind
      have hkey : p.2 = key := of_decide_eq_true hfound
      change Except.ok _ = Except.ok _
      rw [h p (List.mem_of_find?_eq_some hfind), hkey]

/-- The relation shows what promotion gives exactly over uniform files. -/
theorem exposes_iff (files : List (EventFile N U)) :
    Exposes N texts (files.map EventFile.file) ↔ Uniform N texts (files.map EventFile.file) := by
  constructor
  · intro h
    obtain ⟨rows, hrelation, hrows⟩ := h "" [] [] none none false
    have hshown : ∀ p ∈ promoted, ∀ f ∈ files, ∀ row ∈ f.file.rows,
        (if p.1 ∈ f.file.columns then promotedValue N row.properties p.2
          else if ∃ newer ∈ files, p.1 ∈ newer.file.columns then none else derivedText texts (row.properties.get p.2)) =
          promotedValue N row.properties p.2 := fun p hp f hf row hrow => by
      obtain ⟨rows', hrelation', -, hall⟩ := relation_ok texts [] false (files.map EventFile.file) "" [] none none
      obtain rfl : rows' = rows := Except.ok.inj (hrelation'.symm.trans hrelation)
      obtain ⟨r, hr, hshows⟩ := hall (row.under _) (mem_readUnion.mpr ⟨f.file, List.mem_map_of_mem hf, row, hrow, rfl⟩) rfl
      rw [← exposed_under N texts hf hrow hp, ← column_of_shows texts hshows hp, (hrows r hr).1 p hp, hshows.1]
      rfl
    refine ⟨fun p hp newer hnewer hin older holder hout row hrow => ?_, fun p hp hnone file hfile row hrow => ?_⟩
    · obtain ⟨f, hf, rfl⟩ := List.mem_map.mp hnewer
      obtain ⟨g, hg, rfl⟩ := List.mem_map.mp holder
      have := hshown p hp g hg row hrow
      rw [if_neg hout, if_pos ⟨f, hf, hin⟩] at this
      exact this.symm
    · obtain ⟨f, hf, rfl⟩ := List.mem_map.mp hfile
      have := hshown p hp f hf row hrow
      rw [if_neg (hnone _ hfile), if_neg fun ⟨g, hg, hin⟩ => hnone _ (List.mem_map_of_mem hg) hin] at this
      exact (derivedText_eq_iff N texts row.properties p.2).mp this
  · intro h projectId personKeys overrides fromUs toUs withPerson
    obtain ⟨rows, hrelation, hrows, -⟩ :=
      relation_ok texts overrides withPerson (files.map EventFile.file) projectId personKeys fromUs toUs
    refine ⟨rows, hrelation, fun r hr => ?_⟩
    have hpromoted : ∀ p ∈ promoted, r.column p.1 = promotedValue N r.properties p.2 := fun p hp => by
      obtain ⟨row, hrow, hshows⟩ := hrows r hr
      obtain ⟨file, hfile, row, hrow, rfl⟩ := mem_readUnion.mp hrow
      obtain ⟨f, hf, rfl⟩ := List.mem_map.mp hfile
      rw [column_of_shows texts hshows hp, exposed_under N texts hf hrow hp, hshows.1]
      change _ = promotedValue N row.properties p.2
      by_cases hin : p.1 ∈ f.file.columns
      · rw [if_pos hin]
      · rw [if_neg hin]
        by_cases hnewer : ∃ newer ∈ files, p.1 ∈ newer.file.columns
        · obtain ⟨newer, hmem, hcolumn⟩ := hnewer
          rw [if_pos ⟨newer, hmem, hcolumn⟩]
          exact (h.stored p hp newer.file (List.mem_map_of_mem hmem) hcolumn f.file hfile hin row hrow).symm
        · rw [if_neg hnewer, derivedText_eq_iff]
          refine h.derived p hp (fun file hfile hcolumn => hnewer ?_) f.file hfile row hrow
          obtain ⟨g, hg, rfl⟩ := List.mem_map.mp hfile
          exact ⟨g, hg, hcolumn⟩
    exact ⟨hpromoted, propertyText_of_promoted N texts _ hpromoted⟩

/-- A merge of uniform files is again a file that holds what promotion gives. -/
def EventFile.merged {files : List (EventFile N U)} (h : Uniform N texts (files.map EventFile.file))
    {destination : ParquetFile ν U} (hmerge : MergeSql (files.map EventFile.file) destination) : EventFile N U where
  file := destination
  holds row hrow p hp := by
    obtain ⟨file, hfile, r, hr, rfl⟩ := mem_readUnion.mp (hmerge.mem row hrow)
    obtain ⟨f, hf, rfl⟩ := List.mem_map.mp hfile
    rw [hmerge.columns, column_under]
    by_cases hin : p.1 ∈ unionColumns (files.map EventFile.file)
    · rw [if_pos hin, if_pos hin, f.holds r hr p hp]
      by_cases hown : p.1 ∈ f.file.columns
      · exact if_pos hown
      · obtain ⟨newer, hnewer, hcolumn⟩ := mem_unionColumns.mp hin
        rw [if_neg hown]
        exact (h.stored p hp newer hnewer hcolumn f.file hfile hown r hr).symm
    · rw [if_neg hin, if_neg hin]

private theorem uniform_merged {files : List (ParquetFile ν U)} (h : Uniform N texts files) {destination : ParquetFile ν U}
    (hmerge : MergeSql files destination) : Uniform N texts [destination] := by
  refine ⟨fun p hp newer hnewer hin older holder hout => ?_, fun p hp hnone file hfile row hrow => ?_⟩
  · rw [List.mem_singleton.mp hnewer] at hin
    rw [List.mem_singleton.mp holder] at hout
    exact absurd hin hout
  · obtain rfl := List.mem_singleton.mp hfile
    obtain ⟨source, hsource, r, hr, rfl⟩ := mem_readUnion.mp (hmerge.mem row hrow)
    refine h.derived p hp (fun f hf hcolumn => hnone _ hfile ?_) source hsource r hr
    rw [hmerge.columns]
    exact mem_unionColumns.mpr ⟨f, hf, hcolumn⟩

/-- The promoted columns mean the same on a set of files and on what is merged from them exactly when it is uniform. -/
theorem sameMeaning_iff (files : List (EventFile N U)) :
    SameMeaning N texts (files.map EventFile.file) ↔ Uniform N texts (files.map EventFile.file) := by
  constructor
  · intro h
    exact (exposes_iff N texts files).mp h.1
  · intro h
    refine ⟨(exposes_iff N texts files).mpr h, fun destination hmerge => ?_⟩
    let merged := EventFile.merged N texts h hmerge
    refine ⟨(exposes_iff N texts [merged]).mpr (uniform_merged N texts h hmerge), fun row hrow p hp hin => ?_⟩
    rw [merged.holds row hrow p hp]
    exact if_pos hin

end agree

/-- Numbers as DuckDB prints whole ones. -/
def wholeTexts : JsonTexts Int := ⟨fun n => String.ofList (Small.numbers.text n), fun _ => ""⟩

def chromeEvent : CapturedEvent Int Nat where
  uuid := 1
  event := "$pageview"
  distinctId := "u1"
  token := "token"
  timestamp := Small.noon
  properties := Map.ofWritten [("$browser", .string "Chrome")]

/-- A file from before any column was promoted, next to one of today's. -/
def mixedFiles : List (EventFile Small.numbers Nat) :=
  [.written Small.numbers [] (List.nil_sublist promoted) [chromeEvent], .written Small.numbers promoted (List.Sublist.refl _) []]

theorem mixedFiles_differ : ¬ SameMeaning Small.numbers wholeTexts (mixedFiles.map EventFile.file) := by
  intro h
  obtain ⟨rows, hrelation, hrows⟩ := h.1 "" [] [] none none false
  have hvalue : ∃ row, rows = [row] ∧ row.column "browser" = none ∧
      promotedValue Small.numbers row.properties "$browser" = some "Chrome" :=
    ⟨_, (Except.ok.inj hrelation).symm, rfl, rfl⟩
  obtain ⟨row, rfl, hcolumn, hpromoted⟩ := hvalue
  have hsame := (hrows row List.mem_cons_self).1 ("browser", "$browser") (by decide)
  rw [hcolumn, hpromoted] at hsame
  cases hsame

end Hoglet.Query
