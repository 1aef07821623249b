import Hoglet.Choices
import Hoglet.Flags.Matching
import Hoglet.Flags.Store

/-! Flag evaluation with PostHog's semantics: condition groups in order, the first that matches decides. Hashes
and percentages are exact rationals. -/
namespace Hoglet.Flags
open Json Capture

/-- `0xFFFFFFFFFFFFFFF`, the largest 15-hex-digit value. -/
def longScale : Nat := 0xFFFFFFFFFFFFFFF

/-- A consistent hash of flag key, bucketing id and salt in `[0, 1]`. -/
structure Bucketing where
  hash : String → String → String → Rat
  nonneg : ∀ flagKey bucketingId salt, 0 ≤ hash flagKey bucketingId salt
  le_one : ∀ flagKey bucketingId salt, hash flagKey bucketingId salt ≤ 1

/-- `u64::from_be_bytes`. -/
def fromBeBytes (bytes : List UInt8) : Nat := bytes.foldl (fun value byte => value * 256 + byte.toNat) 0

/-- The top 60 bits of the digest's first eight bytes, over their maximum. -/
def fraction (digest : Vector UInt8 20) : Rat := ((fromBeBytes (digest.toList.take 8) >>> 4 : Nat) : Rat) / longScale

theorem fromBeBytes_lt (bytes : List UInt8) : fromBeBytes bytes < 256 ^ bytes.length := by
  induction bytes using List.reverseRecOn with
  | nil => decide
  | append_singleton bytes byte ih =>
    have hbyte := byte.toNat_lt
    simp only [fromBeBytes, List.foldl_append, List.foldl_cons, List.foldl_nil, List.length_append, List.length_singleton,
      Nat.pow_succ] at ih ⊢
    omega

theorem fraction_nonneg (digest : Vector UInt8 20) : 0 ≤ fraction digest := div_nonneg (Nat.cast_nonneg _) (Nat.cast_nonneg _)

theorem fraction_le_one (digest : Vector UInt8 20) : fraction digest ≤ 1 := by
  have hlen : (digest.toList.take 8).length = 8 := by simp
  have hvalue := fromBeBytes_lt (digest.toList.take 8)
  rw [hlen] at hvalue
  have hshift : fromBeBytes (digest.toList.take 8) >>> 4 ≤ longScale := by
    rw [Nat.shiftRight_eq_div_pow, longScale]
    omega
  exact div_le_one_of_le₀ (Nat.cast_le.mpr hshift) (Nat.cast_nonneg _)

/-- PostHog's consistent hash. -/
def Bucketing.ofDigest (sha1 : List UInt8 → Vector UInt8 20) : Bucketing where
  hash flagKey bucketingId salt :=
    fraction (sha1 (utf8 flagKey.toList ++ utf8 ['.'] ++ utf8 bucketingId.toList ++ utf8 salt.toList))
  nonneg _ _ _ := fraction_nonneg _
  le_one _ _ _ := fraction_le_one _

structure FlagVariant where
  key : String
  name : Option String
  /-- Share of matched persons, 0–100. Variants must sum to 100. -/
  rolloutPercentage : Rat

structure Multivariate where
  variants : List FlagVariant

/-- One release condition: every property filter, then that share of the persons (none is everyone). -/
structure FlagConditionGroup (ν : Type) where
  properties : List (PropertyFilter ν)
  rolloutPercentage : Option Rat
  /-- Force this variant for persons matching the group. -/
  variant : Option String

structure FlagFilters (ν : Type) where
  groups : List (FlagConditionGroup ν)
  multivariate : Option Multivariate
  payloads : Map ν

/-- Why a flag has its value; the closest miss is the greatest. -/
inductive ReasonCode where
  | disabled | noConditionMatch | outOfRolloutBound | conditionMatch
  deriving DecidableEq, Ord, Repr

structure Evaluation (ν : Type) where
  enabled : Bool
  variant : Option String
  reason : ReasonCode
  conditionIndex : Option Nat
  payload : Option (Value ν)

inductive GroupMatch where
  | matched | noMatch | outOfRollout
  deriving DecidableEq, Repr

/-- A definition with its regexes compiled once. -/
structure CompiledFlag (ν ρ : Type) where
  flag : FeatureFlag (FlagFilters ν)
  version : Nat
  regexes : List (String × Option ρ)

section evaluate
variable {ν ρ : Type} (M : Matchers ν ρ) (B : Bucketing)

/-- `entry(pattern).or_insert_with`. -/
def addPattern (regexes : List (String × Option ρ)) (filter : PropertyFilter ν) : List (String × Option ρ) :=
  if filter.operator = .regex ∨ filter.operator = .notRegex then
    let pattern := valueToString M filter.value
    if (regexes.lookup pattern).isSome then regexes else (pattern, M.compileRegex pattern) :: regexes
  else regexes

def CompiledFlag.compile (flag : FeatureFlag (FlagFilters ν)) (version : Nat) : CompiledFlag ν ρ where
  flag := flag
  version := version
  regexes := (flag.filters.groups.flatMap (·.properties)).foldl (addPattern M) []

/-- Does any condition read person properties? -/
def CompiledFlag.readsProperties (f : CompiledFlag ν ρ) : Bool := f.flag.filters.groups.any fun group => !group.properties.isEmpty

def CompiledFlag.matchGroup (f : CompiledFlag ν ρ) (now : DateTime) (group : FlagConditionGroup ν) (bucketingId : String)
    (properties : Map ν) : GroupMatch :=
  if ¬ group.properties.all (matchProperty M now · properties f.regexes) then .noMatch
  else
    match group.rolloutPercentage with
    | some rollout => if rollout / 100 < B.hash f.flag.key bucketingId "" then .outOfRollout else .matched
    | none => .matched

def CompiledFlag.hasVariant (f : CompiledFlag ν ρ) (key : String) : Bool :=
  f.flag.filters.multivariate.any fun multivariate => multivariate.variants.any (·.key = key)

/-- The variant whose `[min, max)` range has the value, the ranges one after the other from `valueMin` on. -/
def variantAt (value : Rat) : Rat → List FlagVariant → Option String
  | _, [] => none
  | valueMin, variant :: variants =>
    let valueMax := valueMin + variant.rolloutPercentage / 100
    if valueMin ≤ value ∧ value < valueMax then some variant.key else variantAt value valueMax variants

/-- PostHog's variant lookup table. -/
def CompiledFlag.matchingVariant (f : CompiledFlag ν ρ) (bucketingId : String) : Option String :=
  f.flag.filters.multivariate.bind fun multivariate => variantAt (B.hash f.flag.key bucketingId "variant") 0 multivariate.variants

/-- The variant and the payload that a matching group gives. -/
def CompiledFlag.decided (f : CompiledFlag ν ρ) (bucketingId : String) (index : Nat) (group : FlagConditionGroup ν) : Evaluation ν :=
  let variant := (group.variant.filter f.hasVariant).or (f.matchingVariant B bucketingId)
  ⟨true, variant, .conditionMatch, some index, f.flag.filters.payloads.get (variant.getD "true")⟩

/-- The groups from `index` on, with the closest miss so far. -/
def CompiledFlag.evaluateFrom (f : CompiledFlag ν ρ) (now : DateTime) (bucketingId : String) (properties : Map ν) :
    Nat → ReasonCode → Option Nat → List (FlagConditionGroup ν) → Evaluation ν
  | _, closest, closestIndex, [] => ⟨false, none, closest, closestIndex, none⟩
  | index, closest, closestIndex, group :: groups =>
    match f.matchGroup M B now group bucketingId properties with
    | .matched => f.decided B bucketingId index group
    | .outOfRollout =>
      if compare closest .outOfRolloutBound = .lt then
        f.evaluateFrom now bucketingId properties (index + 1) .outOfRolloutBound (some index) groups
      else f.evaluateFrom now bucketingId properties (index + 1) closest closestIndex groups
    | .noMatch => f.evaluateFrom now bucketingId properties (index + 1) closest closestIndex groups

/-- Evaluate for one bucketing id against the merged person properties. -/
def CompiledFlag.evaluate (f : CompiledFlag ν ρ) (now : DateTime) (bucketingId : String) (properties : Map ν) : Evaluation ν :=
  if ¬ f.flag.active then ⟨false, none, .disabled, none, none⟩
  else f.evaluateFrom M B now bucketingId properties 0 .noConditionMatch none f.flag.filters.groups

end evaluate

section compiled
variable {ν ρ : Type} {M : Matchers ν ρ} {B : Bucketing}

theorem compiled_addPattern {regexes : List (String × Option ρ)} (h : Compiled M regexes) (filter : PropertyFilter ν) :
    Compiled M (addPattern M regexes filter) := by
  unfold addPattern
  split
  · dsimp only
    split
    · exact h
    · intro m hm
      rcases List.mem_cons.mp hm with rfl | hm
      · rfl
      · exact h m hm
  · exact h

theorem compiled_compile (flag : FeatureFlag (FlagFilters ν)) (version : Nat) :
    Compiled M (CompiledFlag.compile M flag version).regexes := by
  have hfold : ∀ (filters : List (PropertyFilter ν)) (regexes : List (String × Option ρ)), Compiled M regexes →
      Compiled M (filters.foldl (addPattern M) regexes) := by
    intro filters
    induction filters with
    | nil => exact fun _ h => h
    | cons filter filters ih => exact fun regexes h => ih _ (compiled_addPattern h filter)
  apply hfold
  simp [Compiled]

variable {flag : FeatureFlag (FlagFilters ν)} {version : Nat} {now : DateTime} {bucketingId : String} {properties : Map ν}

/-- What a group's match says of a compiled definition. -/
theorem matchGroup_compile_iff {group : FlagConditionGroup ν} :
    (CompiledFlag.compile M flag version).matchGroup M B now group bucketingId properties = .matched ↔
      (∀ filter ∈ group.properties, matchProperty M now filter properties [] = true) ∧
        ∀ rollout ∈ group.rolloutPercentage, B.hash flag.key bucketingId "" ≤ rollout / 100 := by
  have hproperties : (group.properties.all fun filter =>
      matchProperty M now filter properties (CompiledFlag.compile M flag version).regexes) = true ↔
      ∀ filter ∈ group.properties, matchProperty M now filter properties [] = true := by
    rw [List.all_eq_true]
    simp only [matchProperty_compiled M (compiled_compile flag version)]
  rw [← hproperties, CompiledFlag.matchGroup]
  by_cases hall : (group.properties.all fun filter =>
      matchProperty M now filter properties (CompiledFlag.compile M flag version).regexes) = true
  · rw [if_neg (not_not_intro hall)]
    cases hrollout : group.rolloutPercentage with
    | none => simp [hall]
    | some rollout =>
      have hkey : (CompiledFlag.compile M flag version).flag.key = flag.key := rfl
      by_cases hin : rollout / 100 < B.hash flag.key bucketingId ""
      · simp [hkey, hin]
      · simp [hall, hkey, hin, not_lt.mp hin]
  · rw [if_pos hall]
    simp [hall]

end compiled

section first
variable {ν ρ : Type} {M : Matchers ν ρ} {B : Bucketing} {f : CompiledFlag ν ρ} {now : DateTime} {bucketingId : String}
  {properties : Map ν}

/-- A group that the person matches. -/
def CompiledFlag.Admits (f : CompiledFlag ν ρ) (M : Matchers ν ρ) (B : Bucketing) (now : DateTime) (bucketingId : String)
    (properties : Map ν) (group : FlagConditionGroup ν) : Prop :=
  f.matchGroup M B now group bucketingId properties = .matched

/-- The first group that matches decides. -/
theorem evaluateFrom_of_first {groups : List (FlagConditionGroup ν)} {i : Nat} {group : FlagConditionGroup ν}
    (h : First (f.Admits M B now bucketingId properties) groups i group) (index : Nat) (closest : ReasonCode)
    (closestIndex : Option Nat) :
    f.evaluateFrom M B now bucketingId properties index closest closestIndex groups = f.decided B bucketingId (index + i) group := by
  induction h generalizing index closest closestIndex with
  | here hmatch =>
    rw [CompiledFlag.evaluateFrom, show f.matchGroup M B now _ bucketingId properties = .matched from hmatch]
    rfl
  | @later a b l i hmatch _ ih =>
    have hindex : index + (i + 1) = index + 1 + i := by omega
    rw [CompiledFlag.evaluateFrom, hindex]
    cases hb : f.matchGroup M B now b bucketingId properties with
    | matched => exact absurd hb hmatch
    | noMatch => exact ih _ _ _
    | outOfRollout =>
      dsimp only
      split
      · exact ih _ _ _
      · exact ih _ _ _

/-- Without a group that matches the flag is off. -/
theorem evaluateFrom_of_none {groups : List (FlagConditionGroup ν)}
    (h : ∀ group ∈ groups, ¬ f.Admits M B now bucketingId properties group) (index : Nat) (closest : ReasonCode)
    (closestIndex : Option Nat) :
    (f.evaluateFrom M B now bucketingId properties index closest closestIndex groups).enabled = false := by
  induction groups generalizing index closest closestIndex with
  | nil => rfl
  | cons group groups ih =>
    rw [List.forall_mem_cons] at h
    rw [CompiledFlag.evaluateFrom]
    cases hgroup : f.matchGroup M B now group bucketingId properties with
    | matched => exact absurd hgroup h.1
    | noMatch => exact ih h.2 _ _ _
    | outOfRollout =>
      dsimp only
      split
      · exact ih h.2 _ _ _
      · exact ih h.2 _ _ _

theorem evaluate_of_first (active : f.flag.active) {i : Nat} {group : FlagConditionGroup ν}
    (h : First (f.Admits M B now bucketingId properties) f.flag.filters.groups i group) :
    f.evaluate M B now bucketingId properties = f.decided B bucketingId i group := by
  rw [CompiledFlag.evaluate, if_neg (not_not_intro active), evaluateFrom_of_first h, Nat.zero_add]

theorem evaluate_enabled_iff :
    (f.evaluate M B now bucketingId properties).enabled ↔
      f.flag.active ∧ ∃ i group, First (f.Admits M B now bucketingId properties) f.flag.filters.groups i group := by
  constructor
  · intro enabled
    by_cases active : f.flag.active = true
    · refine ⟨active, exists_first ?_⟩
      by_contra hnone
      have hnone : ∀ group ∈ f.flag.filters.groups, ¬ f.Admits M B now bucketingId properties group := by
        intro group hmem hadmits
        exact hnone ⟨group, hmem, hadmits⟩
      rw [CompiledFlag.evaluate, if_neg (not_not_intro active), evaluateFrom_of_none hnone] at enabled
      cases enabled
    · rw [CompiledFlag.evaluate, if_pos active] at enabled
      cases enabled
  · rintro ⟨active, i, group, hfirst⟩
    rw [evaluate_of_first active hfirst]
    rfl

end first
end Hoglet.Flags
