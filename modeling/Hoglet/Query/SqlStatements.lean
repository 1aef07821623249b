import Hoglet.Query.Spans
import Hoglet.Query.SqlOutline

/-! No request value is spliced into the text of a statement: the statements of two requests of one shape differ in what
their string literals hold only, and these are constants, paths of files and pointers to keys. -/
namespace Hoglet.Query.Sql
open Json Hoglet.Lake Regions
open Hoglet.Query.Paths (PathsType)

/-- The statements over the event relation. A breakdown of trends comes with its top values. -/
inductive Statement (ν : Type) where
  | firstTimes (node : EventNode ν) (interval : Interval) (startUs endUs : Int) (partition partitions : Nat)
  | pairs (node : EventNode ν) (interval : Interval) (startUs endUs : Int) (partition partitions : Nat)
  | stickiness (node : EventNode ν) (range : ResolvedRange)
  | stickinessActors (node : EventNode ν) (range : ResolvedRange) (intervals : Nat)
  | lifecycle (node : EventNode ν) (interval : Interval) (previousUs endUs : Int) (partition partitions : Nat)
  | paths (pathsType : PathsType) (range : ResolvedRange) (partition partitions : Nat)
  | topValues (node : EventNode ν) (range : ResolvedRange) (breakdown : Query.Breakdown) (limit : Nat)
  | trends (node : EventNode ν) (range : ResolvedRange) (breakdown : Option (Query.Breakdown × List String))

structure Request (ν : Type) where
  source : Source
  properties : List (PropertyFilter ν)
  statement : Statement ν

/-- What of a statement its text depends on. -/
inductive StatementShape where
  | firstTimes (node : NodeShape) (interval : Interval) (partition partitions : Nat)
  | pairs (node : NodeShape) (interval : Interval) (partition partitions : Nat)
  | stickiness (node : NodeShape) (interval : Interval)
  | stickinessActors (node : NodeShape) (interval : Interval)
  | lifecycle (node : NodeShape) (interval : Interval) (partition partitions : Nat)
  | paths (pathsType : PathsType) (partition partitions : Nat)
  | topValues (node : NodeShape) (interval : Interval) (breakdown : Place)
  | trends (node : NodeShape) (interval : Interval) (math : Math) (value : Option Place) (breakdown : Option (Place × Nat))
  deriving DecidableEq

structure Shape where
  source : SourceShape
  properties : List FilterShape
  statement : StatementShape
  deriving DecidableEq

section request
variable {ν F : Type}

def Source.breakdownShape (s : Source) (breakdown : Query.Breakdown) : Place := s.place breakdown.source breakdown.property

def Statement.shape (s : Source) : Statement ν → StatementShape
  | firstTimes node interval _ _ partition partitions => .firstTimes (s.nodeShape node) interval partition partitions
  | pairs node interval _ _ partition partitions => .pairs (s.nodeShape node) interval partition partitions
  | stickiness node range => .stickiness (s.nodeShape node) range.interval
  | stickinessActors node range _ => .stickinessActors (s.nodeShape node) range.interval
  | lifecycle node interval _ _ partition partitions => .lifecycle (s.nodeShape node) interval partition partitions
  | paths pathsType _ partition partitions => .paths pathsType partition partitions
  | topValues node range breakdown _ => .topValues (s.nodeShape node) range.interval (s.breakdownShape breakdown)
  | trends node range breakdown => .trends (s.nodeShape node) range.interval node.math (node.mathProperty.map (s.place .event))
      (breakdown.map fun b => (s.breakdownShape b.1, b.2.length))

/-- The keys of properties in a statement. -/
def Statement.keys : Statement ν → List String
  | firstTimes node _ _ _ _ _ | pairs node _ _ _ _ _ | stickiness node _ | stickinessActors node _ _ | lifecycle node _ _ _ _ _ =>
    node.properties.map fun filter => filter.key
  | paths _ _ _ _ => []
  | topValues node _ breakdown _ => breakdown.property :: node.properties.map fun filter => filter.key
  | trends node _ breakdown =>
    node.mathProperty.toList ++ (breakdown.map fun b => b.1.property).toList ++ node.properties.map fun filter => filter.key

def Statement.sql (R : Reader ν F) (s : Source) (properties : List (PropertyFilter ν)) : Statement ν → Build F String
  | firstTimes node interval startUs endUs partition partitions => Retention.firstTimes R s properties node interval startUs endUs partition partitions
  | pairs node interval startUs endUs partition partitions => Retention.pairs R s properties node interval startUs endUs partition partitions
  | stickiness node range => Stickiness.run R s properties node range
  | stickinessActors node range intervals => Stickiness.actors R s properties node range intervals
  | lifecycle node interval previousUs endUs partition partitions => Lifecycle.classify R s properties node interval previousUs endUs partition partitions
  | paths pathsType range partition partitions => Paths.scan R s properties pathsType range partition partitions
  | topValues node range breakdown limit => Trends.topValues R s properties node range breakdown limit
  | trends node range breakdown => Trends.compute R s properties node range breakdown

def Request.shape (r : Request ν) : Shape := ⟨r.source.shape, r.properties.map r.source.filterShape, r.statement.shape r.source⟩

def Request.keys (r : Request ν) : List String := (r.properties.map fun filter => filter.key) ++ r.statement.keys

def Request.sql (R : Reader ν F) (r : Request ν) : Build F String := r.statement.sql R r.source r.properties

/-- What the literals of a statement may hold. -/
def Request.Allowed (r : Request ν) (content : Text) : Prop :=
  content ∈ constants ∨ (∃ file ∈ r.source.files, content = file.toList) ∨ ∃ key ∈ r.keys ++ promoted.map Prod.snd, content = pointer key

end request

section statements
variable {ν F : Type} {R : Reader ν F} {s s' : Source} {properties properties' : List (PropertyFilter ν)} {allowed : Text → Prop}

/-- What the parts of a statement need of the allowed literals, and of the two requests. -/
structure Fits (s s' : Source) (properties properties' : List (PropertyFilter ν)) (allowed : Text → Prop) : Prop where
  constants : ∀ content ∈ constants, allowed content
  files : ∀ file ∈ s.files, allowed file.toList
  promoted : ∀ p ∈ promoted, allowed (pointer p.2)
  keys : ∀ filter ∈ properties, allowed (pointer filter.key)
  source : s.shape = s'.shape
  properties : properties.map s.filterShape = properties'.map s'.filterShape

/-- Both builders give a part of a text, whatever was bound before. -/
def Parts (allowed : Text → Prop) (g g' : Build F String) : Prop := ∀ n, Both n g g' fun m t u => Part allowed n m t u

variable (hfits : Fits s s' properties properties' allowed) {node node' : EventNode ν}
include hfits

theorem Fits.relation (fromUs fromUs' toUs toUs' : Option Int) (hfrom : fromUs.isSome = fromUs'.isSome) (hto : toUs.isSome = toUs'.isSome)
    (withPerson : Bool) : Parts allowed (s.relation fromUs toUs withPerson : Build F String) (s'.relation fromUs' toUs' withPerson) :=
  fun _ => relation_part hfits.constants hfits.source hfits.files hfits.promoted hfrom hto withPerson

theorem Fits.predicate (hnode : s.nodeShape node = s'.nodeShape node') (hkeys : ∀ filter ∈ node.properties, allowed (pointer filter.key)) :
    Parts allowed (predicate R s properties node) (predicate R s' properties' node') :=
  fun _ => predicate_part hfits.constants hnode hfits.properties fun filter hfilter =>
    (List.mem_append.mp hfilter).elim (hkeys filter) (hfits.keys filter)

theorem firstTimes_part (hnode : s.nodeShape node = s'.nodeShape node') (hkeys : ∀ filter ∈ node.properties, allowed (pointer filter.key))
    (interval : Interval) (startUs startUs' endUs endUs' : Int) (partition partitions : Nat) :
    Parts allowed (Retention.firstTimes R s properties node interval startUs endUs partition partitions)
      (Retention.firstTimes R s' properties' node' interval startUs' endUs' partition partitions) := by
  intro n
  have hc := hfits.constants
  refine (hfits.relation none none (some endUs) (some endUs') rfl rfl true n).bind fun a relation relation' hrelation => ?_
  refine (hfits.predicate hnode hkeys a).bind fun b pred pred' hpred => ?_
  refine (bind_part allowed _ _).bind fun m start start' hstart => .pure ?_
  exact (((((Agree.fixed hc (by decide +kernel)).append hrelation).join hc (by decide +kernel) hpred).join hc (by decide +kernel)
    (partitionClause_part hc partition partitions)).join hc (by decide +kernel) (bucketExpr_first hc interval)).join hc (by decide +kernel) hstart

theorem pairs_part (hnode : s.nodeShape node = s'.nodeShape node') (hkeys : ∀ filter ∈ node.properties, allowed (pointer filter.key))
    (interval : Interval) (startUs startUs' endUs endUs' : Int) (partition partitions : Nat) :
    Parts allowed (Retention.pairs R s properties node interval startUs endUs partition partitions)
      (Retention.pairs R s' properties' node' interval startUs' endUs' partition partitions) := by
  intro n
  have hc := hfits.constants
  refine (hfits.relation (some startUs) (some startUs') (some endUs) (some endUs') rfl rfl true n).bind fun a relation relation' hrelation => ?_
  refine (hfits.predicate hnode hkeys a).bind fun m pred pred' hpred => .pure ?_
  exact ((((Agree.fixed hc (by decide +kernel)).append hrelation).join hc (by decide +kernel) (bucketExpr_ts hc interval)).join hc
    (by decide +kernel) hpred).join hc (by decide +kernel) (partitionClause_part hc partition partitions)

theorem perPerson_part (hnode : s.nodeShape node = s'.nodeShape node') (hkeys : ∀ filter ∈ node.properties, allowed (pointer filter.key))
    {range range' : ResolvedRange} (hinterval : range.interval = range'.interval) :
    Parts allowed (Stickiness.perPerson R s properties node range) (Stickiness.perPerson R s' properties' node' range') := by
  intro n
  have hc := hfits.constants
  refine (hfits.relation (some range.fromUs) (some range'.fromUs) (some range.toUs) (some range'.toUs) rfl rfl true n).bind
    fun a relation relation' hrelation => ?_
  refine (hfits.predicate hnode hkeys a).bind fun m pred pred' hpred => .pure ?_
  rw [← hinterval]
  exact ((((Agree.fixed hc (by decide +kernel)).append hrelation).join hc (by decide +kernel) (bucketExpr_ts hc range.interval)).join hc
    (by decide +kernel) hpred).append (.close hc (by decide +kernel))

example : bucketExpr .month "ts" = "epoch_us(date_trunc('month', make_timestamp(ts)))" := by decide +kernel

theorem stickiness_part (hnode : s.nodeShape node = s'.nodeShape node') (hkeys : ∀ filter ∈ node.properties, allowed (pointer filter.key))
    {range range' : ResolvedRange} (hinterval : range.interval = range'.interval) :
    Parts allowed (Stickiness.run R s properties node range) (Stickiness.run R s' properties' node' range') := by
  intro n
  refine (perPerson_part hfits hnode hkeys hinterval n).bind fun m inner inner' hinner => .pure ?_
  exact hinner.wrap hfits.constants (by decide +kernel) (by decide +kernel)

theorem stickinessActors_part (hnode : s.nodeShape node = s'.nodeShape node') (hkeys : ∀ filter ∈ node.properties, allowed (pointer filter.key))
    {range range' : ResolvedRange} (hinterval : range.interval = range'.interval) (intervals intervals' : Nat) :
    Parts allowed (Stickiness.actors R s properties node range intervals) (Stickiness.actors R s' properties' node' range' intervals') := by
  intro n
  have hc := hfits.constants
  refine (perPerson_part hfits hnode hkeys hinterval n).bind fun a inner inner' hinner => ?_
  refine (bind_part allowed _ _).bind fun m number number' hnumber => .pure ?_
  exact (((Agree.fixed hc (by decide +kernel)).append hinner).join hc (by decide +kernel) hnumber).append (.close hc (by decide +kernel))

theorem lifecycle_part (hnode : s.nodeShape node = s'.nodeShape node') (hkeys : ∀ filter ∈ node.properties, allowed (pointer filter.key))
    (interval : Interval) (previousUs previousUs' endUs endUs' : Int) (partition partitions : Nat) :
    Parts allowed (Lifecycle.classify R s properties node interval previousUs endUs partition partitions)
      (Lifecycle.classify R s' properties' node' interval previousUs' endUs' partition partitions) := by
  intro n
  have hc := hfits.constants
  refine (hfits.relation none none (some endUs) (some endUs') rfl rfl true n).bind fun a relation relation' hrelation => ?_
  refine (hfits.predicate hnode hkeys a).bind fun b pred pred' hpred => ?_
  refine (bind_part allowed _ _).bind fun m previous previous' hprevious => .pure ?_
  exact ((((((Agree.fixed hc (by decide +kernel)).append hrelation).join hc (by decide +kernel) hpred).join hc (by decide +kernel)
    (partitionClause_part hc partition partitions)).join hc (by decide +kernel) (bucketExpr_ts hc interval)).join hc (by decide +kernel)
    hprevious).append (.close hc (by decide +kernel))

theorem paths_part (pathsType : PathsType) (range range' : ResolvedRange) (partition partitions : Nat) :
    Parts allowed (Paths.scan R s properties pathsType range partition partitions : Build F String)
      (Paths.scan R s' properties' pathsType range' partition partitions) := by
  intro n
  have hc := hfits.constants
  refine (hfits.relation (some range.fromUs) (some range'.fromUs) (some range.toUs) (some range'.toUs) rfl rfl true n).bind
    fun a relation relation' hrelation => ?_
  refine (filters_part hc hfits.properties hfits.keys).bind fun m filters filters' hfilters => .pure ?_
  have hnode : Part allowed a a (Paths.node pathsType) (Paths.node pathsType) := by
    cases pathsType <;> exact .whole hc (by decide +kernel)
  exact (((((Agree.fixed hc (by decide +kernel)).append hrelation).join hc (by decide +kernel) hnode).join hc (by decide +kernel) hfilters).join
    hc (by decide +kernel) (partitionClause_part hc partition partitions)).append (.close hc (by decide +kernel))

example : (regions (Paths.node .customEvents).toList).map literals = some ["$".toList] := by decide +kernel

/-! Trends. -/

theorem breakdownText_part {breakdown breakdown' : Query.Breakdown} (hplace : s.breakdownShape breakdown = s'.breakdownShape breakdown')
    (hkey : allowed (pointer breakdown.property)) {t u : String} (h : Trends.breakdownText s breakdown = .ok t)
    (h' : Trends.breakdownText s' breakdown' = .ok u) (n : Nat) : Part allowed n n t u := by
  obtain ⟨text, htext, rfl⟩ := map_ok.mp h
  obtain ⟨text', htext', rfl⟩ := map_ok.mp h'
  exact breakdownExpr_part hfits.constants (propertyText_part hfits.constants hplace hkey htext htext')

theorem topValues_part (hnode : s.nodeShape node = s'.nodeShape node') (hkeys : ∀ filter ∈ node.properties, allowed (pointer filter.key))
    (range range' : ResolvedRange) {breakdown breakdown' : Query.Breakdown} (hplace : s.breakdownShape breakdown = s'.breakdownShape breakdown')
    (hkey : allowed (pointer breakdown.property)) (limit limit' : Nat) :
    Parts allowed (Trends.topValues R s properties node range breakdown limit)
      (Trends.topValues R s' properties' node' range' breakdown' limit') := by
  intro n
  have hc := hfits.constants
  refine .lift_bind fun text text' htext htext' => ?_
  refine (hfits.relation (some range.fromUs) (some range'.fromUs) (some range.toUs) (some range'.toUs) rfl rfl false n).bind
    fun a relation relation' hrelation => ?_
  refine (hfits.predicate hnode hkeys a).bind fun b pred pred' hpred => ?_
  refine (bind_part allowed _ _).bind fun m limit limit' hlimit => .pure ?_
  exact ((((Agree.fixed hc (by decide +kernel)).append hrelation).join hc (by decide +kernel)
    (breakdownText_part hfits hplace hkey htext htext' a)).join hc (by decide +kernel) hpred).join hc (by decide +kernel) hlimit

theorem mappedBreakdown_part {t u : String} (h : ∀ n, Part allowed n n t u) {top top' : List String} (hlength : top.length = top'.length) :
    Parts allowed (Trends.mappedBreakdown t top : Build F String) (Trends.mappedBreakdown u top') := by
  intro n
  have hc := hfits.constants
  rw [Trends.mappedBreakdown, Trends.mappedBreakdown]
  by_cases hnil : top = []
  · have hnil' : top' = [] := List.length_eq_zero_iff.mp (by rw [← hlength, hnil]; rfl)
    rw [if_pos hnil, if_pos hnil']
    exact .pure (.whole hc (by decide +kernel))
  · have hnil' : top' ≠ [] := fun heq => hnil (List.length_eq_zero_iff.mp (by rw [hlength, heq]; rfl))
    rw [if_neg hnil, if_neg hnil']
    refine (texts_part allowed hlength).bind fun m ts us hts => .pure ?_
    have hnonempty : ts ≠ [] := fun heq => hnil (List.length_eq_zero_iff.mp (hts.2.symm.trans (by rw [heq]; rfl)))
    have hlist := hts.1.intercalate hc (by decide +kernel : knownAfter constants ", ".toList = some .mark) hnonempty
    exact ((((Agree.fixed hc (by decide +kernel)).append (h _)).join hc (by decide +kernel) hlist).join hc (by decide +kernel) (h _)).append
      (.close hc (by decide +kernel))

example : ((Trends.mappedBreakdown "v" ["a", "b"] : Build Int String).run []).toOption =
    some ("(CASE WHEN v IN ($1, $2) THEN v ELSE '$$_other' END)", [.text "a", .text "b"]) := by decide +kernel

theorem propertyExpr_part (hvalue : node.mathProperty.map (s.place .event) = node'.mathProperty.map (s'.place .event))
    (hkey : ∀ key ∈ node.mathProperty, allowed (pointer key)) {t u : String} (h : Trends.propertyExpr s node = .ok t)
    (h' : Trends.propertyExpr s' node' = .ok u) (n : Nat) : Part allowed n n t u := by
  rw [Trends.propertyExpr] at h h'
  split at h
  · cases h
  · rename_i key hproperty
    split at h'
    · cases h'
    · rename_i key' hproperty'
      rw [hproperty, hproperty'] at hvalue
      obtain ⟨text, htext, rfl⟩ := map_ok.mp h
      obtain ⟨text', htext', rfl⟩ := map_ok.mp h'
      exact numericExpr_part hfits.constants (propertyText_part hfits.constants (Option.some.inj hvalue) (hkey key hproperty) htext htext')

theorem valueExpr_part (hmath : node.math = node'.math) (hvalue : node.mathProperty.map (s.place .event) = node'.mathProperty.map (s'.place .event))
    (hkey : ∀ key ∈ node.mathProperty, allowed (pointer key)) {t u : String} (h : Trends.valueExpr s node = .ok t)
    (h' : Trends.valueExpr s' node' = .ok u) (n : Nat) : Part allowed n n t u := by
  have hc := hfits.constants
  rw [Trends.valueExpr] at h h'
  rw [← hmath] at h'
  cases hm : node.math <;> rw [hm] at h h'
  case total | weeklyActive | monthlyActive =>
    cases h
    cases h'
    exact .whole hc (by decide +kernel)
  case dau | uniqueSession =>
    cases h
    cases h'
    exact .whole hc (by decide +kernel)
  all_goals exact propertyExpr_part hfits hvalue hkey h h' n

theorem breakdownColumn_part {breakdown breakdown' : Option (Query.Breakdown × List String)}
    (hshape : (breakdown.map fun b => (s.breakdownShape b.1, b.2.length)) = breakdown'.map fun b => (s'.breakdownShape b.1, b.2.length))
    (hkey : ∀ b ∈ breakdown, allowed (pointer b.1.property)) {text text' : Option String}
    (h : (breakdown.mapM fun b => Trends.breakdownText s b.1) = .ok text) (h' : (breakdown'.mapM fun b => Trends.breakdownText s' b.1) = .ok text') :
    Parts allowed (Trends.breakdownColumn text (breakdown.map Prod.snd) : Build F String) (Trends.breakdownColumn text' (breakdown'.map Prod.snd)) := by
  intro n
  cases breakdown with
  | none =>
    obtain rfl : breakdown' = none := by simpa using hshape.symm
    cases h
    cases h'
    exact .pure (.whole hfits.constants (by decide +kernel))
  | some b =>
    obtain ⟨b', rfl, hb⟩ := Option.map_eq_some_iff.mp hshape.symm
    obtain ⟨hplace, hlength⟩ := Prod.mk.inj hb
    obtain ⟨t, ht, h⟩ := bind_ok.mp h
    obtain ⟨u, hu, h'⟩ := bind_ok.mp h'
    cases h
    cases h'
    exact mappedBreakdown_part hfits (breakdownText_part hfits hplace.symm (hkey b rfl) ht hu) hlength.symm n

theorem trends_part (hnode : s.nodeShape node = s'.nodeShape node') (hkeys : ∀ filter ∈ node.properties, allowed (pointer filter.key))
    {range range' : ResolvedRange} (hinterval : range.interval = range'.interval) (hmath : node.math = node'.math)
    (hvalue : node.mathProperty.map (s.place .event) = node'.mathProperty.map (s'.place .event))
    (hvalueKey : ∀ key ∈ node.mathProperty, allowed (pointer key)) {breakdown breakdown' : Option (Query.Breakdown × List String)}
    (hshape : (breakdown.map fun b => (s.breakdownShape b.1, b.2.length)) = breakdown'.map fun b => (s'.breakdownShape b.1, b.2.length))
    (hkey : ∀ b ∈ breakdown, allowed (pointer b.1.property)) :
    Parts allowed (Trends.compute R s properties node range breakdown) (Trends.compute R s' properties' node' range' breakdown') := by
  intro n
  have hc := hfits.constants
  have haggregate : ∀ n, Part allowed n n (Trends.aggregate node.math) (Trends.aggregate node.math) := by
    intro n
    cases node.math <;> exact .whole hc (by decide +kernel)
  refine .lift_bind fun text text' htext htext' => ?_
  rw [← hmath, ← hinterval]
  refine (hfits.relation (some range.fromUs) (some range'.fromUs) (some range.toUs) (some range'.toUs) rfl rfl (Trends.needsPerson node.math) n).bind
    fun a relation relation' hrelation => ?_
  refine (hfits.predicate hnode hkeys a).bind fun b pred pred' hpred => ?_
  refine (breakdownColumn_part hfits hshape hkey htext htext' b).bind fun m bd bd' hbd => ?_
  refine .lift_bind fun value value' hval hval' => .pure ?_
  have hv : Part allowed m m value value' := valueExpr_part hfits hmath hvalue hvalueKey hval hval' m
  have hcolumns := hpred.append_swap ((hbd.join hc (by decide +kernel : knownAfter constants " AS bd, ".toList = some .mark) hv).append
    (.after hc (by decide +kernel : knownAfter constants " AS v FROM ev WHERE ".toList = some .mark)))
  exact ((((Agree.fixed hc (by decide +kernel)).append hrelation).join hc (by decide +kernel) (bucketExpr_ts hc range.interval)).join hc
    (by decide +kernel) hcolumns).join hc (by decide +kernel) (haggregate m) |>.append (.close hc (by decide +kernel))

/-- Statements of one shape, one case for each kind. -/
theorem statement_part {statement statement' : Statement ν} (hshape : statement.shape s = statement'.shape s')
    (hkeys : ∀ key ∈ statement.keys, allowed (pointer key)) : Parts allowed (statement.sql R s properties) (statement'.sql R s' properties') := by
  have hfilters : ∀ {filters : List (PropertyFilter ν)}, ((filters.map fun filter => filter.key) ⊆ statement.keys) →
      ∀ filter ∈ filters, allowed (pointer filter.key) := fun hsub filter hfilter => hkeys filter.key (hsub (List.mem_map_of_mem hfilter))
  cases statement with
  | firstTimes node interval startUs endUs partition partitions =>
    cases statement' with
    | firstTimes =>
      obtain ⟨hnode, rfl, rfl, rfl⟩ := StatementShape.firstTimes.inj hshape
      exact firstTimes_part hfits hnode (hfilters (List.Subset.refl _)) _ _ _ _ _ _ _
    | _ => cases hshape
  | pairs node interval startUs endUs partition partitions =>
    cases statement' with
    | pairs =>
      obtain ⟨hnode, rfl, rfl, rfl⟩ := StatementShape.pairs.inj hshape
      exact pairs_part hfits hnode (hfilters (List.Subset.refl _)) _ _ _ _ _ _ _
    | _ => cases hshape
  | stickiness node range =>
    cases statement' with
    | stickiness =>
      obtain ⟨hnode, hinterval⟩ := StatementShape.stickiness.inj hshape
      exact stickiness_part hfits hnode (hfilters (List.Subset.refl _)) hinterval
    | _ => cases hshape
  | stickinessActors node range intervals =>
    cases statement' with
    | stickinessActors =>
      obtain ⟨hnode, hinterval⟩ := StatementShape.stickinessActors.inj hshape
      exact stickinessActors_part hfits hnode (hfilters (List.Subset.refl _)) hinterval _ _
    | _ => cases hshape
  | lifecycle node interval previousUs endUs partition partitions =>
    cases statement' with
    | lifecycle =>
      obtain ⟨hnode, rfl, rfl, rfl⟩ := StatementShape.lifecycle.inj hshape
      exact lifecycle_part hfits hnode (hfilters (List.Subset.refl _)) _ _ _ _ _ _ _
    | _ => cases hshape
  | paths pathsType range partition partitions =>
    cases statement' with
    | paths =>
      obtain ⟨rfl, rfl, rfl⟩ := StatementShape.paths.inj hshape
      exact paths_part hfits _ _ _ _ _
    | _ => cases hshape
  | topValues node range breakdown limit =>
    cases statement' with
    | topValues =>
      obtain ⟨hnode, -, hplace⟩ := StatementShape.topValues.inj hshape
      exact topValues_part hfits hnode (hfilters (List.subset_cons_self _ _)) _ _ hplace (hkeys _ List.mem_cons_self) _ _
    | _ => cases hshape
  | trends node range breakdown =>
    cases statement' with
    | trends =>
      obtain ⟨hnode, hinterval, hmath, hvalue, hbreakdown⟩ := StatementShape.trends.inj hshape
      refine trends_part hfits hnode (hfilters (List.subset_append_right _ _)) hinterval hmath hvalue (fun key hkey => hkeys key ?_) hbreakdown
        fun b hb => hkeys _ ?_
      · exact List.mem_append_left _ (List.mem_append_left _ (Option.mem_toList.mpr hkey))
      · exact List.mem_append_left _ (List.mem_append_right _ (Option.mem_toList.mpr (Option.mem_map_of_mem _ hb)))
    | _ => cases hshape

end statements

section request
variable {ν F : Type} {R : Reader ν F} {r r' : Request ν}

theorem Request.fits (hshape : r.shape = r'.shape) : Fits r.source r'.source r.properties r'.properties r.Allowed where
  constants _ hcontent := .inl hcontent
  files file hfile := .inr (.inl ⟨file, hfile, rfl⟩)
  promoted p hp := .inr (.inr ⟨p.2, List.mem_append_right _ (List.mem_map_of_mem hp), rfl⟩)
  keys filter hfilter :=
    .inr (.inr ⟨filter.key, List.mem_append_left _ (List.mem_append_left _ (List.mem_map_of_mem hfilter)), rfl⟩)
  source := congrArg Shape.source hshape
  properties := congrArg Shape.properties hshape

theorem Request.parts (hshape : r.shape = r'.shape) : Parts r.Allowed (r.sql R) (r'.sql R) :=
  statement_part (Request.fits hshape) (congrArg Shape.statement hshape) fun key hkey =>
    .inr (.inr ⟨key, List.mem_append_left _ (List.mem_append_right _ hkey), rfl⟩)

/-- Whatever the values of two requests of one shape, their statements have the same regions up to what their literals
hold, bind equally many values and use each in one place; the literals are constants, paths of files and pointers to keys. -/
theorem sql_outline (hshape : r.shape = r'.shape) {text text' : String} {values values' : List (Param F)}
    (h : (r.sql R).run [] = .ok (text, values)) (h' : (r'.sql R).run [] = .ok (text', values')) : values.length = values'.length ∧
      ∃ a b, regions text.toList = some a ∧ regions text'.toList = some b ∧ a.map Token.outline = b.map Token.outline ∧
        (parameters a).Perm (List.range' 1 values.length) ∧ (∀ content ∈ literals a, r.Allowed content) ∧
        ∀ content ∈ literals b, r'.Allowed content := by
  obtain ⟨hlength, hpart⟩ := Request.parts hshape 0 [] [] rfl rfl _ _ h h'
  obtain ⟨a, b, ha, hb, houtline, hparameters, hliterals⟩ := hpart.regions
  obtain ⟨-, hown⟩ := Request.parts (R := R) (rfl : r'.shape = r'.shape) 0 [] [] rfl rfl _ _ h' h'
  obtain ⟨b', -, hb', -, -, -, hliterals'⟩ := hown.regions
  obtain rfl : b = b' := Option.some.inj (hb.symm.trans hb')
  exact ⟨hlength, a, b, ha, hb, houtline, hparameters, hliterals, hliterals'⟩

end request

/-! A key and a value that would end their statement if they were spliced into it. -/
section sample

def sampleReader : Reader ℚ ℚ := ⟨Chrono.small, .exact, some, fun _ => ""⟩

def sampleRequest (key value : String) : Request ℚ where
  source := ⟨["/data/1.parquet"], .complete, "p", []⟩
  properties := [⟨⟨key, .event⟩, .exact, .string value⟩]
  statement := .pairs ⟨some "signup", [], .total, none⟩ .day 0 dayUs 0 1

theorem sample_outline : ∃ text text' a b, ((sampleRequest "plan" "pro").sql sampleReader).run [] = .ok text ∧
    ((sampleRequest "'); DROP TABLE x; --" "' OR true --").sql sampleReader).run [] = .ok text' ∧
      regions text.1.toList = some a ∧ regions text'.1.toList = some b ∧ a.map Token.outline = b.map Token.outline := by
  obtain ⟨text, h⟩ : ∃ text, ((sampleRequest "plan" "pro").sql sampleReader).run [] = .ok text := ⟨_, rfl⟩
  obtain ⟨text', h'⟩ : ∃ text, ((sampleRequest "'); DROP TABLE x; --" "' OR true --").sql sampleReader).run [] = .ok text := ⟨_, rfl⟩
  obtain ⟨-, a, b, ha, hb, houtline, -⟩ := sql_outline (by decide +kernel) h h'
  exact ⟨text, text', a, b, h, h', ha, hb, houtline⟩

end sample

end Hoglet.Query.Sql
