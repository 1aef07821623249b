import Hoglet.Flags.Raised
import Hoglet.Flags.Validate

/-! Who is given which variant of a multivariate flag. The ranges of the variants are half-open and end at the sum of
the shares, while the hash can be 1. -/
namespace Hoglet.Flags
open Json Capture

/-- Whoever has the flag has one of its variants: one with a share, or the one that the deciding group forces. -/
def Evaluation.Served {ν : Type} (evaluation : Evaluation ν) (filters : FlagFilters ν) : Prop :=
  evaluation.enabled → ∃ multivariate ∈ filters.multivariate, ∃ variant ∈ multivariate.variants,
    evaluation.variant = some variant.key ∧
      (variant.rolloutPercentage ≠ 0 ∨
        ∃ index group, evaluation.conditionIndex = some index ∧ filters.groups[index]? = some group ∧ group.variant = some variant.key)

/-- The shares of the variants, of one. -/
def shares (variants : List FlagVariant) : List (String × Rat) := variants.map fun variant => (variant.key, variant.rolloutPercentage / 100)

theorem variantAt_eq_pick (value valueMin : Rat) (variants : List FlagVariant) :
    variantAt value valueMin variants = pick value valueMin (shares variants) := by
  induction variants generalizing valueMin with
  | nil => rfl
  | cons variant variants ih => simp only [variantAt, shares, List.map_cons, pick, ih]

theorem sum_shares (variants : List FlagVariant) :
    ((shares variants).map Prod.snd).sum = (variants.map (·.rolloutPercentage)).sum / 100 := by
  induction variants with
  | nil => simp [shares]
  | cons variant variants ih =>
    simp only [shares, List.map_cons, List.sum_cons] at ih ⊢
    rw [ih]
    ring

/-- The values that get a variant are those below the sum of the shares. -/
theorem variantAt_isSome_iff {variants : List FlagVariant} (nonneg : ∀ variant ∈ variants, 0 ≤ variant.rolloutPercentage)
    {value : Rat} (hvalue : 0 ≤ value) :
    (variantAt value 0 variants).isSome ↔ value < (variants.map (·.rolloutPercentage)).sum / 100 := by
  have hshares : ∀ m ∈ shares variants, 0 ≤ m.2 := by
    intro m hm
    obtain ⟨variant, hmem, rfl⟩ := List.mem_map.mp hm
    exact div_nonneg (nonneg variant hmem) (by norm_num)
  rw [variantAt_eq_pick, pick_isSome_iff hshares, sum_shares, zero_add]
  exact and_iff_right hvalue

theorem variantAt_share {value valueMin : Rat} {key : String} {variants : List FlagVariant}
    (h : variantAt value valueMin variants = some key) : ∃ variant ∈ variants, variant.key = key ∧ variant.rolloutPercentage ≠ 0 := by
  rw [variantAt_eq_pick] at h
  obtain ⟨share, hmem, hpos⟩ := pick_share h
  obtain ⟨variant, hvariant, heq⟩ := List.mem_map.mp hmem
  cases heq
  refine ⟨variant, hvariant, rfl, fun hzero => ?_⟩
  rw [hzero, zero_div] at hpos
  exact lt_irrefl _ hpos

section served
variable {ν ρ : Type} {M : Matchers ν ρ} {B : Bucketing} {flag : FeatureFlag (FlagFilters ν)} {version : Nat} {now : DateTime}
  {bucketingId : String} {properties : Map ν} {multivariate : Multivariate}

/-- An override that names a variant wins. -/
theorem served_override (accepted : flag.filters.Accepted) {index : Nat} {group : FlagConditionGroup ν}
    (hgroup : flag.filters.groups[index]? = some group) {key : String} (hkey : group.variant = some key) :
    ((CompiledFlag.compile M flag version).decided B bucketingId index group).Served flag.filters := by
  intro _
  obtain ⟨multivariate, hmultivariate, variant, hvariant, rfl⟩ := accepted.overrides group (List.mem_of_getElem? hgroup) key hkey
  have hhas : (CompiledFlag.compile M flag version).hasVariant variant.key := by
    have hfilters : (CompiledFlag.compile M flag version).flag.filters.multivariate = some multivariate := hmultivariate
    rw [CompiledFlag.hasVariant, hfilters, Option.any_some, List.any_eq_true]
    exact ⟨variant, hvariant, decide_eq_true rfl⟩
  refine ⟨multivariate, hmultivariate, variant, hvariant, ?_, .inr ⟨index, group, rfl, hgroup, hkey⟩⟩
  simp only [CompiledFlag.decided, hkey, Option.filter_some, hhas, if_true, Option.some_or]

/-- Without an override it is the hash that says. -/
theorem served_hash_iff (accepted : flag.filters.Accepted) (hmulti : flag.filters.multivariate = some multivariate) {index : Nat}
    {group : FlagConditionGroup ν} (hgroup : group.variant = none) :
    ((CompiledFlag.compile M flag version).decided B bucketingId index group).Served flag.filters ↔
      B.hash flag.key bucketingId "variant" < (multivariate.variants.map (·.rolloutPercentage)).sum / 100 := by
  have hvariant : ((CompiledFlag.compile M flag version).decided B bucketingId index group).variant =
      variantAt (B.hash flag.key bucketingId "variant") 0 multivariate.variants := by
    have hfilters : (CompiledFlag.compile M flag version).flag.filters.multivariate = some multivariate := hmulti
    simp only [CompiledFlag.decided, hgroup, Option.filter_none, Option.none_or, CompiledFlag.matchingVariant, hfilters, Option.bind_some]
    rfl
  have hnonneg : ∀ variant ∈ multivariate.variants, 0 ≤ variant.rolloutPercentage :=
    fun variant hmem => (accepted.shares multivariate hmulti variant hmem).1
  rw [← variantAt_isSome_iff hnonneg (B.nonneg _ _ _)]
  constructor
  · intro served
    obtain ⟨_, _, variant, _, hkey, _⟩ := served rfl
    rw [← hvariant, hkey]
    rfl
  · intro hsome _
    obtain ⟨key, hkey⟩ := Option.isSome_iff_exists.mp hsome
    obtain ⟨variant, hmem, rfl, hshare⟩ := variantAt_share hkey
    exact ⟨multivariate, hmulti, variant, hmem, hvariant.trans hkey, .inl hshare⟩

/-- Everyone with an accepted multivariate flag has a variant of it unless the first group that matches forces none and
the hash is not below the sum of the shares. -/
theorem served_iff {encode : FlagFilters ν → Except String Nat} {validated : DateTime}
    (accepted : validateFilters M encode validated flag.filters = .ok ()) (hmulti : flag.filters.multivariate = some multivariate) :
    ((CompiledFlag.compile M flag version).evaluate M B now bucketingId properties).Served flag.filters ↔
      (flag.active → ∀ index group,
        First ((CompiledFlag.compile M flag version).Admits M B now bucketingId properties) flag.filters.groups index group →
        group.variant = none →
        B.hash flag.key bucketingId "variant" < (multivariate.variants.map (·.rolloutPercentage)).sum / 100) := by
  have accepted := accepted_of_validate accepted
  constructor
  · intro served active index group hfirst hgroup
    rw [evaluate_of_first active hfirst] at served
    exact (served_hash_iff accepted hmulti hgroup).mp served
  · intro h enabled
    obtain ⟨active, index, group, hfirst⟩ := evaluate_enabled_iff.mp enabled
    rw [evaluate_of_first active hfirst] at enabled ⊢
    cases hgroup : group.variant with
    | none => exact (served_hash_iff accepted hmulti hgroup).mpr (h active index group hfirst hgroup) enabled
    | some key => exact served_override accepted hfirst.getElem? hgroup enabled

/-- The slack of the sum keeps those without a variant within the last hundred-millionth of the hash. -/
theorem served_below {encode : FlagFilters ν → Except String Nat} {validated : DateTime}
    (accepted : validateFilters M encode validated flag.filters = .ok ()) (hmulti : flag.filters.multivariate = some multivariate)
    (hhash : B.hash flag.key bucketingId "variant" < 1 - variantSumEpsilon / 100) :
    ((CompiledFlag.compile M flag version).evaluate M B now bucketingId properties).Served flag.filters := by
  refine (served_iff accepted hmulti).mpr fun _ _ _ _ _ => lt_of_lt_of_le hhash ?_
  have hsum := (abs_le.mp ((accepted_of_validate accepted).sum multivariate hmulti)).1
  rw [le_div_iff₀ (by norm_num)]
  linarith

end served

/-- Everyone's hash is 1: the digest starts with 60 ones. -/
def topmost : Bucketing := .ofDigest fun _ => ⟨#[255, 255, 255, 255, 255, 255, 255, 255, 0, 0, 0, 0, 0, 0, 0, 0, 0, 0, 0, 0], rfl⟩

private theorem checkout_accepted : validateFilters .small (fun _ => .ok 361) Small.noon (checkout 100).filters = .ok () := by
  decide +kernel

/-- A user who has the flag and none of its variants. -/
theorem topmost_unserved : validateFilters .small (fun _ => .ok 361) Small.noon (checkout 100).filters = .ok () ∧
    ((CompiledFlag.compile .small (checkout 100) 1).evaluate .small topmost Small.noon "user" .empty).enabled ∧
    ((CompiledFlag.compile .small (checkout 100) 1).evaluate .small topmost Small.noon "user" .empty).variant = none ∧
    ¬ ((CompiledFlag.compile .small (checkout 100) 1).evaluate .small topmost Small.noon "user" .empty).Served (checkout 100).filters := by
  have henabled : ((CompiledFlag.compile .small (checkout 100) 1).evaluate .small topmost Small.noon "user" .empty).enabled := by
    decide +kernel
  have hnone : ((CompiledFlag.compile .small (checkout 100) 1).evaluate .small topmost Small.noon "user" .empty).variant = none := by
    decide +kernel
  refine ⟨checkout_accepted, henabled, hnone, fun served => ?_⟩
  obtain ⟨_, _, variant, _, hkey, _⟩ := served henabled
  rw [hnone] at hkey
  cases hkey

theorem halfway_served_iff :
    ((CompiledFlag.compile .small (checkout 100) 1).evaluate .small halfway Small.noon "user" .empty).Served (checkout 100).filters ↔
      ((checkout 100).active → ∀ index group,
        First ((CompiledFlag.compile .small (checkout 100) 1).Admits .small halfway Small.noon "user" .empty)
          (checkout 100).filters.groups index group →
        group.variant = none → halfway.hash "checkout" "user" "variant" < (evenly.variants.map (·.rolloutPercentage)).sum / 100) :=
  served_iff checkout_accepted rfl

end Hoglet.Flags
