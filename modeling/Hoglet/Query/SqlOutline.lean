import Hoglet.Query.SqlText

/-! The text of a query depends on the shape of its request only, up to what its string literals hold. -/
namespace Hoglet.Query.Sql
open Json Hoglet.Lake Regions

/-- The literals of the texts themselves. -/
def constants : List Text :=
  [[], "OBJECT".toList, "ARRAY".toList, "month".toList, "$pageview".toList, "$".toList, numericPatternText.toList, breakdownNone.toList,
    breakdownOther.toList]

/-- The content of the literal of a property's key. -/
def pointer (key : String) : Text := '/' :: escapePointer key.toList

/-- Where the text of a property is found. -/
inductive Place where
  | column (name : String)
  | pointer
  | loaded (index : Option Nat)
  deriving DecidableEq

def Source.place (s : Source) : PropertySource → String → Place
  | .event, key => (promotedColumn key).elim .pointer .column
  | .person, key => .loaded (s.personKeys.idxOf? key)

section expressions
variable {allowed : Text → Prop} (hconstants : ∀ content ∈ constants, allowed content) {n m : Nat} {t u : String}
include hconstants

theorem numericExpr_part (h : Part allowed n n t u) : Part allowed n n (numericExpr t) (numericExpr u) := by
  have hopen := (Agree.fixed (n := n) hconstants (by decide +kernel : knownMode constants "(CASE WHEN regexp_full_match(".toList = some .mark)).append h
  exact ((hopen.append (.after hconstants (by decide +kernel))).append h).append (.close hconstants (by decide +kernel))

theorem breakdownExpr_part (h : Part allowed n n t u) : Part allowed n n (breakdownExpr t) (breakdownExpr u) :=
  h.wrap hconstants (by decide +kernel) (by decide +kernel)

theorem bucketExpr_ts (interval : Interval) : Part allowed n n (bucketExpr interval "ts") (bucketExpr interval "ts") := by
  cases interval <;> exact .whole hconstants (by decide +kernel)

theorem bucketExpr_first (interval : Interval) : Part allowed n n (bucketExpr interval "first_ts") (bucketExpr interval "first_ts") := by
  cases interval <;> exact .whole hconstants (by decide +kernel)

theorem partitionClause_part (partition partitions : Nat) :
    Part allowed n n (partitionClause partition partitions) (partitionClause partition partitions) := by
  rw [partitionClause]
  split
  · exact .whole hconstants (by decide +kernel)
  · exact ((Agree.fixed hconstants (by decide +kernel)).append (.number partitions)).join hconstants (by decide +kernel) (.number partition)

example : regions (partitionClause 3 8).toList = some ("hash(person_id) % 8 = 3".toList.map .code) := by decide +kernel

end expressions

/-! Quoted texts and keys. -/
section literals
variable {allowed : Text → Prop} {n : Nat} {text text' key key' t u : String}

theorem stringLiteral_ok (h : stringLiteral text = .ok t) : '\x00' ∉ text.toList ∧ t = String.ofList (quoted text.toList) := by
  rw [stringLiteral] at h
  split at h
  · cases h
  · rename_i hnul
    cases h
    exact ⟨hnul, String.toList_inj.mp (by simp [quoted])⟩

theorem stringLiteral_part (h : stringLiteral text = .ok t) (h' : stringLiteral text' = .ok u) (hallowed : allowed text.toList) :
    Part allowed n n t u := by
  obtain ⟨hnul, rfl⟩ := stringLiteral_ok h
  obtain ⟨hnul', rfl⟩ := stringLiteral_ok h'
  exact .literal hnul hnul' hallowed

theorem jsonPointerLiteral_ok (h : jsonPointerLiteral key = .ok t) : stringLiteral (String.ofList (pointer key)) = .ok t := by
  rw [jsonPointerLiteral, Query.jsonPointerLiteral] at h
  cases hkey : validateKey key with
  | error e =>
    rw [hkey] at h
    cases h
  | ok u =>
    rw [hkey] at h
    exact h

theorem jsonPointerLiteral_part (h : jsonPointerLiteral key = .ok t) (h' : jsonPointerLiteral key' = .ok u) (hallowed : allowed (pointer key)) :
    Part allowed n n t u :=
  stringLiteral_part (jsonPointerLiteral_ok h) (jsonPointerLiteral_ok h') (by rwa [String.toList_ofList])

/-- A name that ends in a number. -/
theorem numbered_part {stem : String} (hstem : ∀ c ∈ stem.toList, isWord c) (index : Nat) :
    Part allowed n n (stem ++ toString index) (stem ++ toString index) := by
  have htext : (stem ++ toString index).toList = stem.toList ++ Nat.toDigits 10 index := by
    rw [String.toList_append]
    exact congrArg (stem.toList ++ ·) Nat.toList_repr
  refine .word (by simp) fun c hc => ?_
  rw [htext, List.mem_append] at hc
  rcases hc with hc | hc
  · exact hstem c hc
  · simp [isWord, Char.isAlphanum, Nat.isDigit_of_mem_toDigits (by decide) (by decide) hc]

theorem loaded_part (index : Nat) : Part allowed n n (Source.loaded index) (Source.loaded index) :=
  numbered_part (List.all_eq_true.mp (by decide +kernel)) index

theorem joined_part (index : Nat) : Part allowed n n (Source.joined index) (Source.joined index) :=
  numbered_part (List.all_eq_true.mp (by decide +kernel)) index

theorem promotedColumn_mem (h : promotedColumn key = some t) : t ∈ promoted.map Prod.fst := by
  obtain ⟨p, hp, rfl⟩ := Option.map_eq_some_iff.mp h
  exact List.mem_map_of_mem (List.mem_of_find?_eq_some hp)

theorem promotedName_part (h : t ∈ promoted.map Prod.fst) : Part allowed n n t t := by
  have hword : ∀ t ∈ promoted.map Prod.fst, t.toList ≠ [] ∧ t.toList.all isWord := by decide +kernel
  exact .word (hword t h).1 (List.all_eq_true.mp (hword t h).2)

end literals

/-- The text of a property by its place. -/
inductive Found (key : String) : Place → String → Prop
  | column {name : String} : name ∈ promoted.map Prod.fst → Found key (.column name) name
  | pointer {p : String} : jsonPointerLiteral key = .ok p → Found key .pointer ("json_extract_string(properties, " ++ p ++ ")")
  | loaded (index : Nat) : Found key (.loaded (some index)) (Source.loaded index)

theorem propertyText_found {s : Source} {source : PropertySource} {key t : String} (h : s.propertyText source key = .ok t) :
    Found key (s.place source key) t := by
  obtain ⟨-, -, h⟩ := bind_ok.mp h
  cases source with
  | event =>
    rw [Source.place]
    cases hcolumn : promotedColumn key with
    | some column =>
      simp only [hcolumn] at h
      cases h
      exact .column (promotedColumn_mem hcolumn)
    | none =>
      simp only [hcolumn] at h
      cases hp : jsonPointerLiteral key with
      | error e =>
        rw [hp] at h
        cases h
      | ok p =>
        rw [hp] at h
        cases h
        exact .pointer hp
  | person =>
    rw [Source.place]
    cases hindex : s.personKeys.idxOf? key with
    | none =>
      simp only [hindex] at h
      cases h
    | some index =>
      simp only [hindex] at h
      cases h
      exact .loaded index

section filters
variable {ν F : Type} {R : Reader ν F} {s s' : Source} {allowed : Text → Prop} (hconstants : ∀ content ∈ constants, allowed content)
  {n m : Nat} {t u : String}
include hconstants

/-- Properties found in the same place have the same text, but for their keys. -/
theorem propertyText_part {source source' : PropertySource} {key key' : String} (hplace : s.place source key = s'.place source' key')
    (hkey : allowed (pointer key)) (h : s.propertyText source key = .ok t) (h' : s'.propertyText source' key' = .ok u) :
    Part allowed n n t u := by
  have hfound := propertyText_found h
  have hfound' := propertyText_found h'
  rw [← hplace] at hfound'
  generalize s.place source key = place at hfound hfound'
  cases hfound with
  | column hname =>
    cases hfound'
    exact promotedName_part hname
  | pointer hp =>
    cases hfound' with
    | pointer hp' => exact (jsonPointerLiteral_part hp hp' hkey).wrap hconstants (by decide +kernel) (by decide +kernel)
  | loaded index =>
    cases hfound'
    exact loaded_part index

example : (stringLiteral "it's").toOption = some "'it''s'" := by decide +kernel

end filters

/-! Bound values. -/
section params
variable {F : Type} (allowed : Text → Prop) {n : Nat}

theorem bind_part (value value' : Param F) : Both n (Params.bind value) (Params.bind value') fun m t u => Part allowed n m t u := by
  rintro bound bound' rfl hlength r r' hr hr'
  cases hr
  cases hr'
  have hcount : (bound ++ [value]).length = bound.length + 1 := List.length_append
  have hcount' : (bound' ++ [value']).length = bound.length + 1 := by rw [List.length_append, hlength]; rfl
  refine ⟨hcount.trans hcount'.symm, ?_⟩
  change Part allowed _ (bound ++ [value]).length ("$" ++ toString (bound ++ [value]).length) ("$" ++ toString (bound' ++ [value']).length)
  rw [hcount, hcount']
  exact .parameter

/-- As many placeholders as texts. -/
theorem texts_part {texts texts' : List String} (hlength : texts.length = texts'.length) :
    Both n (texts.mapM Params.text : Build F (List String)) (texts'.mapM Params.text) fun m ts us => Agreeing allowed n m ts us ∧ ts.length = texts.length := by
  have hkeys : texts.map (fun _ => ()) = texts'.map fun _ => () := by
    rw [List.map_const', List.map_const', hlength]
  exact .mapM _ _ hkeys fun n text _ text' _ _ => bind_part allowed _ _

variable {allowed}

theorem instant_part (hconstants : ∀ content ∈ constants, allowed content) (us us' : Int) :
    Both n (Params.instant us : Build F String) (Params.instant us') fun m t u => Part allowed n m t u :=
  (bind_part allowed _ _).bind fun _ _ _ h => .pure (h.append (.close hconstants (by decide +kernel)))

end params

/-! Filters. -/

/-- What of a filter its text depends on. -/
structure FilterShape where
  operator : PropertyOperator
  place : Place
  values : Nat
  deriving DecidableEq

/-- The values a filter compares with, where it takes a list. -/
def valueCount {ν : Type} : PropertyOperator → Value ν → Nat
  | .exact, .array items => items.length
  | .isNot, .array items => items.length
  | _, _ => 1

def Source.filterShape {ν : Type} (s : Source) (filter : PropertyFilter ν) : FilterShape :=
  ⟨filter.operator, s.place filter.source filter.key, valueCount filter.operator filter.value⟩

section tests
variable {ν F : Type} {R : Reader ν F} {s s' : Source} {allowed : Text → Prop} (hconstants : ∀ content ∈ constants, allowed content)
  {n : Nat} {t u : String} {value value' : Value ν}

theorem valueTexts_length {texts : List String} (h : valueTexts R value = .ok texts) :
    texts ≠ [] ∧ ∀ operator, operator = .exact ∨ operator = .isNot → texts.length = valueCount operator value := by
  have hcount : texts.length = valueCount .exact value ∧ texts ≠ [] := by
    cases value with
    | array items =>
      rw [valueTexts] at h
      split at h
      · cases h
      · rename_i hsize
        have hlength := (mapM_get h).1
        refine ⟨hlength, fun hnil => hsize (.inl ?_)⟩
        rw [← hlength, hnil, List.length_nil]
    | _ =>
      simp only [valueTexts] at h
      obtain ⟨text, -, rfl⟩ := map_ok.mp h
      exact ⟨rfl, by simp⟩
  refine ⟨hcount.2, ?_⟩
  rintro operator (rfl | rfl)
  · exact hcount.1
  · cases value <;> exact hcount.1

include hconstants

theorem inTest_part (h : ∀ n, Part allowed n n t u) {operator : PropertyOperator} (hoperator : operator = .exact ∨ operator = .isNot)
    (hcount : valueCount operator value = valueCount operator value') :
    Both n (Source.inTest R t value : Build F String) (Source.inTest R u value') fun m t u => Part allowed n m t u := by
  refine .lift_bind fun texts texts' htexts htexts' => ?_
  obtain ⟨values, hvalues, htexts⟩ := bind_ok.mp htexts
  obtain ⟨-, -, htexts⟩ := bind_ok.mp htexts
  cases htexts
  obtain ⟨values', hvalues', htexts'⟩ := bind_ok.mp htexts'
  obtain ⟨-, -, htexts'⟩ := bind_ok.mp htexts'
  cases htexts'
  obtain ⟨hne, hlength⟩ := valueTexts_length hvalues
  obtain ⟨-, hlength'⟩ := valueTexts_length hvalues'
  have hsame := (hlength operator hoperator).trans (hcount.trans (hlength' operator hoperator).symm)
  refine (texts_part allowed hsame).bind fun m ts us hts => .pure ?_
  have hnonempty : ts ≠ [] := fun hnil => hne (List.length_eq_zero_iff.mp (hts.2.symm.trans (by rw [hnil]; rfl)))
  have hlist := hts.1.intercalate hconstants (by decide +kernel : knownAfter constants ", ".toList = some .mark) hnonempty
  exact ((h _).join hconstants (by decide +kernel) hlist).append (.close hconstants (by decide +kernel))

theorem containsTest_part (h : ∀ n, Part allowed n n t u) :
    Both n (Source.containsTest R t value) (Source.containsTest R u value') fun m t u => Part allowed n m t u := by
  refine .lift_bind fun text text' _ _ => ?_
  refine (bind_part allowed _ _).bind fun m p p' hp => .pure ?_
  exact ((((Agree.fixed hconstants (by decide +kernel)).append (h _)).append (.after hconstants (by decide +kernel))).append hp).append
    (.close hconstants (by decide +kernel))

theorem regexTest_part (h : ∀ n, Part allowed n n t u) :
    Both n (Source.regexTest R t value) (Source.regexTest R u value') fun m t u => Part allowed n m t u := by
  refine .lift_bind fun text text' _ _ => ?_
  refine (bind_part allowed _ _).bind fun m p p' hp => .pure ?_
  exact ((((Agree.fixed hconstants (by decide +kernel)).append (h _)).append (.after hconstants (by decide +kernel))).append hp).append
    (.close hconstants (by decide +kernel))

example : numericExpr "v" = "(CASE WHEN regexp_full_match(v, '-?[0-9]+(\\.[0-9]+)?([eE][-+]?[0-9]+)?') THEN TRY_CAST(v AS DOUBLE) END)" := by
  decide +kernel

theorem numberTest_part (h : ∀ n, Part allowed n n t u) {op : String} (hop : knownAfter constants op.toList = some .mark) :
    Both n (Source.numberTest R t op value) (Source.numberTest R u op value') fun m t u => Part allowed n m t u := by
  refine .lift_bind fun number number' _ _ => ?_
  refine (bind_part allowed _ _).bind fun m p p' hp => .pure ?_
  exact (numericExpr_part hconstants (h _)).join hconstants hop hp

theorem instantTest_part (h : ∀ n, Part allowed n n t u) {op : String} (hop : knownAfter constants op.toList = some .mark) :
    Both n (Source.instantTest R t op value) (Source.instantTest R u op value') fun m t u => Part allowed n m t u := by
  refine .lift_bind fun us us' _ _ => ?_
  refine (instant_part hconstants _ _).bind fun m p p' hp => .pure ?_
  exact ((h _).wrap hconstants (by decide +kernel) (by decide +kernel)).join hconstants hop hp

/-- Filters of one shape have the same text, but for their keys. -/
theorem filter_part {filter filter' : PropertyFilter ν} (hshape : s.filterShape filter = s'.filterShape filter') (hkey : allowed (pointer filter.key)) :
    Both n (s.filter R filter) (s'.filter R filter') fun m t u => Part allowed n m t u := by
  obtain ⟨hoperator, hplace, hcount⟩ := FilterShape.mk.inj hshape
  refine .lift_bind fun t u ht hu => ?_
  have h : ∀ n, Part allowed n n t u := fun n => propertyText_part hconstants hplace hkey ht hu
  have hpositive : ∀ n m t u, Part allowed n m t u → Part allowed n m (Source.positive t) (Source.positive u) := fun n m t u h =>
    h.wrap hconstants (by decide +kernel) (by decide +kernel)
  have hnegative : ∀ n m t u, Part allowed n m t u → Part allowed n m (Source.negative t) (Source.negative u) := fun n m t u h =>
    h.wrap hconstants (by decide +kernel) (by decide +kernel)
  rw [← hoperator] at hcount ⊢
  cases hop : filter.operator <;> rw [hop] at hcount <;> dsimp only
  case exact => exact (inTest_part hconstants h (.inl rfl) hcount).map fun m => hpositive _ m
  case isNot => exact (inTest_part hconstants h (.inr rfl) hcount).map fun m => hnegative _ m
  case icontains => exact (containsTest_part hconstants h).map fun m => hpositive _ m
  case notIcontains => exact (containsTest_part hconstants h).map fun m => hnegative _ m
  case regex => exact (regexTest_part hconstants h).map fun m => hpositive _ m
  case notRegex => exact (regexTest_part hconstants h).map fun m => hnegative _ m
  case isSet => exact .pure ((h _).wrap hconstants (by decide +kernel) (by decide +kernel))
  case isNotSet => exact .pure ((h _).wrap hconstants (by decide +kernel) (by decide +kernel))
  case isDateBefore | isDateAfter => exact (instantTest_part hconstants h (by decide +kernel)).map fun m => hpositive _ m
  case gt | gte | lt | lte => exact (numberTest_part hconstants h (by decide +kernel)).map fun m => hpositive _ m

theorem filters_part {filters filters' : List (PropertyFilter ν)} (hshape : filters.map s.filterShape = filters'.map s'.filterShape)
    (hkeys : ∀ filter ∈ filters, allowed (pointer filter.key)) :
    Both n (s.filters R filters) (s'.filters R filters') fun m t u => Part allowed n m t u := by
  refine (Both.mapM _ _ hshape fun n filter hfilter filter' _ heq => filter_part hconstants heq (hkeys filter hfilter)).bind fun m ts us hts => .pure ?_
  have htrue : Part allowed n n "TRUE" "TRUE" := .whole hconstants (by decide +kernel)
  exact (Agreeing.cons htrue hts.1).intercalate hconstants (by decide +kernel) (by simp)

end tests

/-! Series and steps. -/

structure NodeShape where
  named : Bool
  properties : List FilterShape
  deriving DecidableEq

def Source.nodeShape {ν : Type} (s : Source) (node : EventNode ν) : NodeShape := ⟨node.event.isSome, node.properties.map s.filterShape⟩

section nodes
variable {ν F : Type} {R : Reader ν F} {s s' : Source} {allowed : Text → Prop} (hconstants : ∀ content ∈ constants, allowed content)
  {n : Nat} {node node' : EventNode ν} {properties properties' : List (PropertyFilter ν)}
include hconstants

theorem eventMatch_part (hnamed : node.event.isSome = node'.event.isSome) :
    Both n (eventMatch node : Build F String) (eventMatch node') fun m t u => Part allowed n m t u := by
  rw [eventMatch, eventMatch]
  cases hname : node.event with
  | none =>
    rw [hname] at hnamed
    have hnone : node'.event = none := by simpa using hnamed.symm
    rw [hnone]
    exact .pure (.whole hconstants (by decide +kernel))
  | some name =>
    rw [hname] at hnamed
    obtain ⟨name', hname'⟩ := Option.isSome_iff_exists.mp hnamed.symm
    rw [hname']
    exact (bind_part allowed _ _).bind fun m t u h => .pure (h.wrap hconstants (by decide +kernel) (by decide +kernel))

theorem predicate_part (hnode : s.nodeShape node = s'.nodeShape node') (hproperties : properties.map s.filterShape = properties'.map s'.filterShape)
    (hkeys : ∀ filter ∈ node.properties ++ properties, allowed (pointer filter.key)) :
    Both n (predicate R s properties node) (predicate R s' properties' node') fun m t u => Part allowed n m t u := by
  obtain ⟨hnamed, hown⟩ := NodeShape.mk.inj hnode
  refine (eventMatch_part hconstants hnamed).bind fun k t u hevent => ?_
  refine (filters_part hconstants hown fun filter h => hkeys filter (List.mem_append_left _ h)).bind fun l t' u' hfilters => ?_
  refine (filters_part hconstants hproperties fun filter h => hkeys filter (List.mem_append_right _ h)).bind fun m t' u' hall => .pure ?_
  exact (hevent.join hconstants (by decide +kernel) hfilters).join hconstants (by decide +kernel) hall

example : breakdownExpr "pathname" = "coalesce(NULLIF(pathname, ''), '$$_none')" := by decide +kernel

end nodes

/-! The relation. -/

structure SourceShape where
  files : Nat
  schema : EventSchema
  personKeys : Nat
  deriving DecidableEq

def Source.shape (s : Source) : SourceShape := ⟨s.files.length, s.schema, s.personKeys.length⟩

section relation
variable {F : Type} {s s' : Source} {allowed : Text → Prop} (hconstants : ∀ content ∈ constants, allowed content) {n : Nat}
include hconstants

theorem emptyRelation_part (s : Source) : Part allowed n n s.emptyRelation s.emptyRelation := by
  refine Agree.wrap hconstants (by decide +kernel) (by decide +kernel) ?_
  have hfixed : ∀ column ∈ Source.emptyColumns, (knownMode constants column.toList).any Mode.settled := by decide +kernel
  refine Agreeing.intercalate hconstants (by decide +kernel) (.of_forall fun column hcolumn => ?_) (by simp [Source.emptyColumns])
  rcases List.mem_append.mp hcolumn with hcolumn | hcolumn
  · exact .whole hconstants (hfixed column hcolumn)
  · obtain ⟨index, -, rfl⟩ := List.mem_map.mp hcolumn
    exact (Agree.fixed hconstants (by decide +kernel)).append (loaded_part index)

theorem promotedCell_part {cell : (String × String) × Nat} (hcell : cell ∈ promoted.zipIdx) (hschema : s.schema = s'.schema)
    (hpromoted : ∀ p ∈ promoted, allowed (pointer p.2)) :
    Both n (liftM (s.promotedCell cell.2 cell.1.1 cell.1.2) : Build F String) (liftM (s'.promotedCell cell.2 cell.1.1 cell.1.2))
      fun m t u => Part allowed n m t u := by
  refine .lift fun t u ht hu => ?_
  have hmem : cell.1 ∈ promoted := List.fst_mem_of_mem_zipIdx hcell
  have hname : Part allowed n n cell.1.1 cell.1.1 := promotedName_part (List.mem_map_of_mem hmem)
  rw [Source.promotedCell] at ht hu
  rw [← hschema] at hu
  split at ht
  · rename_i hpresent
    rw [if_pos hpresent] at hu
    cases ht
    cases hu
    exact ((Agree.fixed hconstants (by decide +kernel)).append hname).join hconstants (by decide +kernel) hname
  · rename_i habsent
    rw [if_neg habsent] at hu
    obtain ⟨p, hp, ht⟩ := bind_ok.mp ht
    obtain ⟨p', hp', hu⟩ := bind_ok.mp hu
    cases ht
    cases hu
    have hpointer : Part allowed n n p p' := jsonPointerLiteral_part hp hp' (hpromoted cell.1 hmem)
    exact (((Agree.fixed hconstants (by decide +kernel)).append hpointer).join hconstants (by decide +kernel) hpointer).join hconstants
      (by decide +kernel) hname

theorem overridesJoin_part (withPerson : Bool) : Both n (s.overridesJoin withPerson : Build F String) (s'.overridesJoin withPerson)
    fun m t u => Agree allowed (fun mode => mode.settled) (fun mode => mode.settled) n m t u := by
  rw [Source.overridesJoin, Source.overridesJoin]
  split
  · exact (bind_part allowed _ _).bind fun _ _ _ h =>
      .pure (((Agree.after hconstants (by decide +kernel)).append h).append (.close hconstants (by decide +kernel)))
  · exact .pure .empty

theorem personJoin_part (index : Nat) :
    Agree allowed (fun mode => mode.settled) (fun mode => mode.settled) n n (Source.personJoin index) (Source.personJoin index) := by
  have htable := (Agree.after (n := n) hconstants (by decide +kernel : knownAfter constants " LEFT JOIN ".toList = some .mark)).append (loaded_part index)
  have hnamed := (htable.append (.after hconstants (by decide +kernel : knownAfter constants " ".toList = some .mark))).append (joined_part index)
  have hon := (hnamed.append (.after hconstants (by decide +kernel : knownAfter constants " ON ".toList = some .mark))).append (joined_part index)
  exact hon.append (.close hconstants (by decide +kernel))

example : Source.personJoin 0 = " LEFT JOIN pp_0 pp0 ON pp0.person_id = coalesce(o.person_id, e.distinct_id)" := by decide +kernel

omit hconstants in
theorem joins_part {joins : List String} {m : Nat} {t u : String}
    (hjoins : ∀ join ∈ joins, ∀ n, Agree allowed (fun mode => mode.settled) (fun mode => mode.settled) n n join join)
    (h : Agree allowed (fun mode => mode.settled) (fun mode => mode.settled) n m t u) :
    Agree allowed (fun mode => mode.settled) (fun mode => mode.settled) n m (joins.foldl (· ++ ·) t) (joins.foldl (· ++ ·) u) := by
  induction joins generalizing t u with
  | nil => exact h
  | cons join joins ih =>
    exact ih (fun join hjoin => hjoins join (List.mem_cons_of_mem _ hjoin)) (h.append (hjoins join List.mem_cons_self m))

theorem bound_part {test : String} (htest : knownMode constants test.toList = some .mark) {us us' : Option Int} (hsome : us.isSome = us'.isSome) :
    Both n (Source.bound test us : Build F (List String)) (Source.bound test us') fun m ts us => Agreeing allowed n m ts us := by
  cases us with
  | none =>
    have hnone : us' = none := by simpa using hsome.symm
    rw [hnone]
    exact .pure .nil
  | some us =>
    obtain ⟨us', rfl⟩ := Option.isSome_iff_exists.mp hsome.symm
    refine (instant_part hconstants us us').bind fun m t u h => .pure (.cons ?_ .nil)
    exact (Agree.fixed hconstants htest).append h

omit hconstants in
/-- The files, each in its literal. -/
theorem files_part (hfiles : s.files.length = s'.files.length) (hallowed : ∀ file ∈ s.files, allowed file.toList) :
    Both n (s.files.mapM fun path => (liftM (stringLiteral path) : Build F String)) (s'.files.mapM fun path => liftM (stringLiteral path))
      fun m ts us => Agreeing allowed n m ts us ∧ ts.length = s.files.length := by
  have hkeys : s.files.map (fun _ => ()) = s'.files.map fun _ => () := by
    rw [List.map_const', List.map_const', hfiles]
  exact .mapM _ _ hkeys fun n file hfile file' _ _ => .lift fun t u ht hu => stringLiteral_part ht hu (hallowed file hfile)

theorem columns_part {cells cells' : List String} (withPerson : Bool) {m : Nat} (hpersons : s.personKeys.length = s'.personKeys.length)
    (hcells : Agreeing allowed n m cells cells') :
    Part allowed n m (", ".intercalate (s.columns cells withPerson)) (", ".intercalate (s'.columns cells' withPerson)) := by
  have hfixed : ∀ column ∈ Source.eventColumns, (knownMode constants column.toList).any Mode.settled := by decide +kernel
  have hperson : (knownMode constants (Source.person ++ " AS person_id").toList).any Mode.settled := by decide +kernel
  have hevent : Agreeing allowed n n Source.eventColumns Source.eventColumns := .of_forall fun column hcolumn => .whole hconstants (hfixed column hcolumn)
  have hperson : Agreeing allowed m m (if withPerson then [Source.person ++ " AS person_id"] else [])
      (if withPerson then [Source.person ++ " AS person_id"] else []) := by
    split
    · exact .cons (.whole hconstants hperson) .nil
    · exact .nil
  have hloaded : Agreeing allowed m m ((List.range s.personKeys.length).map Source.personColumn)
      ((List.range s.personKeys.length).map Source.personColumn) := by
    refine .of_forall fun column hcolumn => ?_
    obtain ⟨index, -, rfl⟩ := List.mem_map.mp hcolumn
    exact (joined_part index).join hconstants (by decide +kernel) (loaded_part index)
  rw [Source.columns, Source.columns, ← hpersons]
  exact (((hevent.append hcells).append hperson).append hloaded).intercalate hconstants (by decide +kernel) (by simp [Source.eventColumns])

theorem whereClause_part {m : Nat} {conditions conditions' : List String} (h : Agreeing allowed n m conditions conditions') :
    Agree allowed (fun mode => mode.settled) (fun mode => mode.settled) n m (Source.whereClause conditions) (Source.whereClause conditions') := by
  cases h with
  | nil => exact .empty
  | cons hfirst hrest =>
    rw [Source.whereClause, Source.whereClause, if_neg (List.cons_ne_nil _ _), if_neg (List.cons_ne_nil _ _)]
    exact (Agree.after hconstants (by decide +kernel)).append ((Agreeing.cons hfirst hrest).intercalate hconstants (by decide +kernel) (by simp))

theorem fileRelation_part (hshape : s.shape = s'.shape) (hne : s.files ≠ []) (hfiles : ∀ file ∈ s.files, allowed file.toList)
    (hpromoted : ∀ p ∈ promoted, allowed (pointer p.2)) {fromUs toUs fromUs' toUs' : Option Int} (hfrom : fromUs.isSome = fromUs'.isSome)
    (hto : toUs.isSome = toUs'.isSome) (withPerson : Bool) :
    Both n (s.fileRelation fromUs toUs withPerson : Build F String) (s'.fileRelation fromUs' toUs' withPerson) fun m t u => Part allowed n m t u := by
  obtain ⟨hlength, hschema, hpersons⟩ := SourceShape.mk.inj hshape
  have hcells : Both n (promoted.zipIdx.mapM fun cell => (liftM (s.promotedCell cell.2 cell.1.1 cell.1.2) : Build F String))
      (promoted.zipIdx.mapM fun cell => liftM (s'.promotedCell cell.2 cell.1.1 cell.1.2))
      fun m ts us => Agreeing allowed n m ts us ∧ ts.length = promoted.zipIdx.length := by
    refine .mapM id id rfl fun n cell hcell cell' _ heq => ?_
    obtain rfl : cell = cell' := heq
    exact promotedCell_part hconstants hcell hschema hpromoted
  refine hcells.bind fun a cells cells' hcells => ?_
  refine (overridesJoin_part hconstants withPerson).bind fun b overrides overrides' hoverrides => ?_
  refine (files_part hlength hfiles).bind fun c files files' hlist => ?_
  refine (bound_part hconstants (by decide +kernel) hfrom).bind fun d lower lower' hlower => ?_
  refine (bound_part hconstants (by decide +kernel) hto).bind fun e upper upper' hupper => .pure ?_
  have hfile : files ≠ [] := fun hnil => hne (List.length_eq_zero_iff.mp (hlist.2.symm.trans (by rw [hnil]; rfl)))
  have hfront := ((Agree.fixed hconstants (by decide +kernel : knownMode constants "SELECT ".toList = some .mark)).append
    (columns_part hconstants withPerson hpersons hcells.1)).append
      (.after hconstants (by decide +kernel : knownAfter constants " FROM read_parquet([".toList = some .mark))
  have hfixed : ∀ join ∈ (List.range s.personKeys.length).map Source.personJoin, ∀ n,
      Agree allowed (fun mode => mode.settled) (fun mode => mode.settled) n n join join := by
    intro join hjoin n
    obtain ⟨index, -, rfl⟩ := List.mem_map.mp hjoin
    exact personJoin_part hconstants index
  have hjoins := joins_part hfixed hoverrides
  -- The project is bound before the files are listed, and joined after them.
  have hback := hjoins.append_swap ((hlist.1.intercalate hconstants (by decide +kernel : knownAfter constants ", ".toList = some .mark) hfile).append
    (.close hconstants (by decide +kernel : (knownAfter constants "], union_by_name = true) e".toList).any Mode.settled)))
  have hassoc : ∀ front files e joins : String, front ++ files ++ e ++ joins = front ++ (files ++ e ++ joins) := fun _ _ _ _ => by
    simp only [String.append_assoc]
  rw [hassoc _ (", ".intercalate files), hassoc _ (", ".intercalate files'), ← hpersons]
  exact (hfront.append hback).append (whereClause_part hconstants (hlower.append hupper))

theorem relation_part (hshape : s.shape = s'.shape) (hfiles : ∀ file ∈ s.files, allowed file.toList)
    (hpromoted : ∀ p ∈ promoted, allowed (pointer p.2)) {fromUs toUs fromUs' toUs' : Option Int} (hfrom : fromUs.isSome = fromUs'.isSome)
    (hto : toUs.isSome = toUs'.isSome) (withPerson : Bool) :
    Both n (s.relation fromUs toUs withPerson : Build F String) (s'.relation fromUs' toUs' withPerson) fun m t u => Part allowed n m t u := by
  obtain ⟨hlength, -, hpersons⟩ := SourceShape.mk.inj hshape
  have hempty : s'.files.isEmpty = s.files.isEmpty := by
    rw [Bool.eq_iff_iff, List.isEmpty_iff_length_eq_zero, List.isEmpty_iff_length_eq_zero, hlength]
  have hnone : s'.personKeys.isEmpty = s.personKeys.isEmpty := by
    rw [Bool.eq_iff_iff, List.isEmpty_iff_length_eq_zero, List.isEmpty_iff_length_eq_zero, hpersons]
  rw [Source.relation, Source.relation, hempty, hnone]
  split
  · have hsame : s'.emptyRelation = s.emptyRelation := by rw [Source.emptyRelation, Source.emptyRelation, hpersons]
    rw [hsame]
    exact .pure (emptyRelation_part hconstants s)
  · rename_i hne
    exact fileRelation_part hconstants hshape (by simpa using hne) hfiles hpromoted hfrom hto _

end relation

end Hoglet.Query.Sql
