import Hoglet.Flags.Eval
import Hoglet.Query.Spans

/-! Raising rollouts: whoever has a flag keeps it, from the same group or an earlier one. -/
namespace Hoglet.Flags
open Json Capture Query

section raised
variable {ν ρ : Type} {M : Matchers ν ρ} {B : Bucketing}

/-- The same condition with a greater rollout, or with none. -/
structure FlagConditionGroup.Raised (group group' : FlagConditionGroup ν) : Prop where
  properties : group'.properties = group.properties
  variant : group'.variant = group.variant
  rollout : ∀ rollout' ∈ group'.rolloutPercentage, ∃ rollout ∈ group.rolloutPercentage, rollout ≤ rollout'

/-- What an evaluation reads of two definitions, but for the rollouts of groups, which are raised. -/
structure Raised (flag flag' : FeatureFlag (FlagFilters ν)) : Prop where
  key : flag'.key = flag.key
  active : flag'.active = flag.active
  multivariate : flag'.filters.multivariate = flag.filters.multivariate
  payloads : flag'.filters.payloads = flag.filters.payloads
  groups : List.Forall₂ FlagConditionGroup.Raised flag.filters.groups flag'.filters.groups

variable {flag flag' : FeatureFlag (FlagFilters ν)} {version version' : Nat} {now : DateTime} {bucketingId : String}
  {properties : Map ν}

/-- A group admits whom it admitted before. -/
theorem matchGroup_raised (raised : Raised flag flag') {group group' : FlagConditionGroup ν} (hgroup : group.Raised group')
    (h : (CompiledFlag.compile M flag version).Admits M B now bucketingId properties group) :
    (CompiledFlag.compile M flag' version').Admits M B now bucketingId properties group' := by
  rw [CompiledFlag.Admits, matchGroup_compile_iff] at h ⊢
  obtain ⟨hproperties, hrollout⟩ := h
  refine ⟨by rw [hgroup.properties]; exact hproperties, ?_⟩
  intro rollout' hrollout'
  obtain ⟨rollout, hmem, hle⟩ := hgroup.rollout rollout' hrollout'
  rw [raised.key]
  calc B.hash flag.key bucketingId "" ≤ rollout / 100 := hrollout rollout hmem
    _ ≤ rollout' / 100 := by linarith

/-- The first group that matches is the same one or an earlier one. -/
theorem first_raised (raised : Raised flag flag') {index : Nat} {group : FlagConditionGroup ν}
    (h : First ((CompiledFlag.compile M flag version).Admits M B now bucketingId properties) flag.filters.groups index group) :
    ∃ index' ≤ index, ∃ group',
      First ((CompiledFlag.compile M flag' version').Admits M B now bucketingId properties) flag'.filters.groups index' group' := by
  have hadmits : ∀ group group', group.Raised group' →
      (CompiledFlag.compile M flag version).Admits M B now bucketingId properties group →
      (CompiledFlag.compile M flag' version').Admits M B now bucketingId properties group' :=
    fun _ _ hgroup => matchGroup_raised raised hgroup
  exact h.earlier hadmits raised.groups

/-- Without overrides a group gives what every other group gives. -/
theorem decided_raised (raised : Raised flag flag') {group group' : FlagConditionGroup ν} (hgroup : group.variant = none)
    (hgroup' : group'.variant = none) (index index' : Nat) :
    ((CompiledFlag.compile M flag' version').decided B bucketingId index' group').variant =
        ((CompiledFlag.compile M flag version).decided B bucketingId index group).variant ∧
      ((CompiledFlag.compile M flag' version').decided B bucketingId index' group').payload =
        ((CompiledFlag.compile M flag version).decided B bucketingId index group).payload := by
  have hvariant : (CompiledFlag.compile M flag' version').matchingVariant B bucketingId =
      (CompiledFlag.compile M flag version).matchingVariant B bucketingId := by
    simp only [CompiledFlag.matchingVariant, CompiledFlag.compile, raised.key, raised.multivariate]
  simp only [CompiledFlag.decided, hgroup, hgroup', Option.filter_none, Option.none_or, hvariant]
  exact ⟨trivial, by simp only [CompiledFlag.compile, raised.payloads]⟩

theorem variant_none_raised {groups groups' : List (FlagConditionGroup ν)}
    (raised : List.Forall₂ FlagConditionGroup.Raised groups groups') (h : ∀ group ∈ groups, group.variant = none) :
    ∀ group' ∈ groups', group'.variant = none := by
  induction raised with
  | nil => simp
  | cons hgroup _ ih =>
    rw [List.forall_mem_cons] at h ⊢
    exact ⟨hgroup.variant.trans h.1, ih h.2⟩

/-- Whoever has the flag keeps it, and without overrides with the same variant and payload. -/
theorem raised_keeps (raised : Raised flag flag')
    (enabled : ((CompiledFlag.compile M flag version).evaluate M B now bucketingId properties).enabled) :
    ((CompiledFlag.compile M flag' version').evaluate M B now bucketingId properties).enabled ∧
      ((∀ group ∈ flag.filters.groups, group.variant = none) →
        ((CompiledFlag.compile M flag' version').evaluate M B now bucketingId properties).variant =
            ((CompiledFlag.compile M flag version).evaluate M B now bucketingId properties).variant ∧
          ((CompiledFlag.compile M flag' version').evaluate M B now bucketingId properties).payload =
            ((CompiledFlag.compile M flag version).evaluate M B now bucketingId properties).payload) := by
  obtain ⟨hactive, index, group, hfirst⟩ := evaluate_enabled_iff.mp enabled
  obtain ⟨index', -, group', hfirst'⟩ := first_raised raised hfirst
  rw [evaluate_of_first hactive hfirst, evaluate_of_first (raised.active.trans hactive) hfirst']
  refine ⟨rfl, fun hnone => ?_⟩
  have hnone' := variant_none_raised raised.groups hnone
  exact decided_raised raised (hnone _ hfirst.mem) (hnone' _ hfirst'.mem) _ _

/-- The group that decides comes no later than before. -/
theorem raised_earlier (raised : Raised flag flag')
    (enabled : ((CompiledFlag.compile M flag version).evaluate M B now bucketingId properties).enabled) :
    ∃ index' index, index' ≤ index ∧
      ((CompiledFlag.compile M flag' version').evaluate M B now bucketingId properties).conditionIndex = some index' ∧
      ((CompiledFlag.compile M flag version).evaluate M B now bucketingId properties).conditionIndex = some index := by
  obtain ⟨hactive, index, group, hfirst⟩ := evaluate_enabled_iff.mp enabled
  obtain ⟨index', hle, group', hfirst'⟩ := first_raised raised hfirst
  rw [evaluate_of_first hactive hfirst, evaluate_of_first (raised.active.trans hactive) hfirst']
  exact ⟨index', index, hle, rfl, rfl⟩

end raised

/-- The instance: whole numbers, and patterns of letters and digits only. -/
def Matchers.small : Matchers Int String where
  toChrono := .small
  numbers := Small.numbers
  numberText number := String.ofList (Small.intText number)
  asF64 number := some number
  parseF64 text := (parseI64 text.toList).map Int.cast
  toLowercase text := String.ofList (text.toList.map Char.toLower)
  parseOffset _ _ := none
  compileRegex pattern := if pattern.toList.all Char.isAlphanum then some pattern else none
  isMatch program text := program.toList <:+: text.toList

/-- Everyone's hash is a little over a half. -/
def halfway : Bucketing := .ofDigest fun _ => ⟨#[128, 0, 0, 0, 0, 0, 0, 0, 0, 0, 0, 0, 0, 0, 0, 0, 0, 0, 0, 0], rfl⟩

def evenly : Multivariate := ⟨[⟨"control", none, 50⟩, ⟨"test", none, 50⟩]⟩

/-- A flag for a share of everyone and for all who have the plan. -/
def checkout (rollout : Rat) : FeatureFlag (FlagFilters Int) where
  id := 1
  key := "checkout"
  name := ""
  active := true
  filters :=
    { groups := [⟨[], some rollout, none⟩, ⟨[⟨"plan", .exact, .string "pro"⟩], none, none⟩]
      multivariate := some evenly
      payloads := .ofWritten [("test", .string "green")] }
  ensureExperienceContinuity := false
  createdAt := ""
  updatedAt := ""

theorem checkout_raised : Raised (checkout 30) (checkout 60) where
  key := rfl
  active := rfl
  multivariate := rfl
  payloads := rfl
  groups := .cons ⟨rfl, rfl, fun _ h => ⟨30, rfl, by cases h; norm_num⟩⟩ (.cons ⟨rfl, rfl, fun _ h => by cases h⟩ .nil)

/-- What the flag is for a user on the plan. -/
def checkoutFor (rollout : Rat) (version : Nat) : Evaluation Int :=
  (CompiledFlag.compile .small (checkout rollout) version).evaluate .small halfway Small.noon "user" (.ofWritten [("plan", .string "Pro")])

/-- From the second group to the first, with the same variant and payload. -/
theorem checkout_keeps : (checkoutFor 60 2).enabled ∧
    ((∀ group ∈ (checkout 30).filters.groups, group.variant = none) →
      (checkoutFor 60 2).variant = (checkoutFor 30 1).variant ∧ (checkoutFor 60 2).payload = (checkoutFor 30 1).payload) :=
  raised_keeps checkout_raised (by decide +kernel)

end Hoglet.Flags
