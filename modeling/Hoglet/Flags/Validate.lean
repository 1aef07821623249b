import Hoglet.Checks
import Hoglet.Flags.Eval

/-! Flag definition validation: every limit is explicit, so that a definition that passes is bounded in size and in
the cost of an evaluation. -/
namespace Hoglet.Flags
open Json Capture

def maxKeyBytes : Nat := 400
def maxNameBytes : Nat := 4096
def maxGroups : Nat := 50
def maxPropertiesPerGroup : Nat := 50
def maxVariants : Nat := 50
def maxPropertyKeyBytes : Nat := 400
/-- One property filter value (scalar or array), serialized. -/
def maxFilterValueBytes : Nat := 16 * 1024
/-- One payload, serialized. -/
def maxPayloadBytes : Nat := 64 * 1024
/-- The whole `filters` object, serialized. -/
def maxFiltersBytes : Nat := 512 * 1024

/-- Allowed rounding slack when variant percentages must sum to 100. -/
def variantSumEpsilon : Rat := 1 / 1000000

/-- `str::len`. -/
def byteLength (s : String) : Nat := (utf8 s.toList).length

/-- The error, when there is something to refuse. -/
def refuse (wrong : Prop) [Decidable wrong] (error : Invalid) : Except Invalid Unit := if wrong then .error error else .ok ()

theorem refuse_ok {wrong : Prop} [Decidable wrong] {error : Invalid} {u : Unit} : refuse wrong error = .ok u ↔ ¬ wrong := by
  unfold refuse
  split
  · simp_all
  · simp_all

/-- PostHog's key rule: letters, digits, `-` and `_`. -/
def validateKey (key : String) : Except Invalid Unit :=
  if key = "" then .error ⟨"key", "must not be empty"⟩
  else if maxKeyBytes < byteLength key then .error ⟨"key", "must be at most " ++ toString maxKeyBytes ++ " bytes"⟩
  else if ¬ key.toList.all fun c => c.isAlphanum || c = '-' || c = '_' then
    .error ⟨"key", "may only contain letters, numbers, hyphens (-) and underscores (_)"⟩
  else .ok ()

def validateName (name : String) : Except Invalid Unit :=
  refuse (maxNameBytes < byteLength name) ⟨"name", "must be at most " ++ toString maxNameBytes ++ " bytes"⟩

def percentage (value : Rat) (field : String) : Except Invalid Unit :=
  refuse (¬ (0 ≤ value ∧ value ≤ 100)) ⟨field, "must be a number from 0 through 100"⟩

def validateVariant (field : String) (keys : List String) (variant : FlagVariant) : Except Invalid Unit := do
  (validateKey variant.key).mapError fun error => ⟨field ++ ".key", error.message⟩
  (match variant.name with
    | some name => (validateName name).mapError fun error => ⟨field ++ ".name", error.message⟩
    | none => .ok ())
  percentage variant.rolloutPercentage (field ++ ".rollout_percentage")
  refuse (variant.key ∈ keys) ⟨field ++ ".key", "variant keys must be unique"⟩

/-- The variants from `index` on; the keys and the sum of all. -/
def validateVariants : Nat → List String → Rat → List FlagVariant → Except Invalid (List String × Rat)
  | _, keys, sum, [] => .ok (keys, sum)
  | index, keys, sum, variant :: variants => do
    validateVariant ("filters.multivariate.variants[" ++ toString index ++ "]") keys variant
    validateVariants (index + 1) (variant.key :: keys) (sum + variant.rolloutPercentage) variants

/-- The variant keys of a multivariate section. -/
def validateMultivariate (variants : List FlagVariant) : Except Invalid (List String) := do
  refuse (variants.isEmpty ∨ maxVariants < variants.length)
    ⟨"filters.multivariate.variants", "must have between 1 and " ++ toString maxVariants ++ " variants"⟩
  let (keys, sum) ← validateVariants 0 [] 0 variants
  refuse (variantSumEpsilon < |sum - 100|)
    ⟨"filters.multivariate.variants", "variant rollout percentages must sum to 100"⟩
  return keys

section filters
variable {ν ρ : Type} (M : Matchers ν ρ)

/-- `serde_json::to_vec` of a value. -/
def encodedLength (value : Value ν) : Nat := (utf8 (print M.numbers value)).length

def validateProperty (now : DateTime) (field : String) (filter : PropertyFilter ν) : Except Invalid Unit := do
  refuse (filter.key = "" ∨ maxPropertyKeyBytes < byteLength filter.key)
    ⟨field ++ ".key", "must be 1 to " ++ toString maxPropertyKeyBytes ++ " bytes"⟩
  refuse (maxFilterValueBytes < encodedLength M filter.value)
    ⟨field ++ ".value", "must be at most " ++ toString maxFilterValueBytes ++ " bytes"⟩
  refuse ((filter.operator = .regex ∨ filter.operator = .notRegex) ∧ (M.compileRegex (valueToString M filter.value)).isNone)
    ⟨field ++ ".value", "is not a valid regular expression"⟩
  refuse ((filter.operator = .isDateBefore ∨ filter.operator = .isDateAfter) ∧ (flagDate M now filter.value).isNone)
    ⟨field ++ ".value", "must be a date (2024-01-31) or relative date (-7d)"⟩

/-- The property filters of a group from `index` on. -/
def validateProperties (now : DateTime) (field : String) : Nat → List (PropertyFilter ν) → Except Invalid Unit
  | _, [] => .ok ()
  | index, filter :: filters => do
    validateProperty M now (field ++ ".properties[" ++ toString index ++ "]") filter
    validateProperties now field (index + 1) filters

def validateGroup (now : DateTime) (field : String) (keys : List String) (group : FlagConditionGroup ν) : Except Invalid Unit := do
  (match group.rolloutPercentage with
    | some rollout => percentage rollout (field ++ ".rollout_percentage")
    | none => .ok ())
  refuse (group.variant.any (· ∉ keys)) ⟨field ++ ".variant", "must name one of the flag's variants"⟩
  refuse (maxPropertiesPerGroup < group.properties.length)
    ⟨field ++ ".properties", "at most " ++ toString maxPropertiesPerGroup ++ " property filters"⟩
  validateProperties M now field 0 group.properties

/-- The condition groups from `index` on. -/
def validateGroups (now : DateTime) (keys : List String) : Nat → List (FlagConditionGroup ν) → Except Invalid Unit
  | _, [] => .ok ()
  | index, group :: groups => do
    validateGroup M now ("filters.groups[" ++ toString index ++ "]") keys group
    validateGroups now keys (index + 1) groups

/-- Payload keys are `"true"` for a boolean flag, or a variant key. -/
def validatePayload (multivariate : Option Multivariate) (keys : List String) (key : String) (payload : Value ν) :
    Except Invalid Unit := do
  refuse (¬ (if multivariate.isSome then key ∈ keys else key = "true"))
    ⟨"filters.payloads." ++ key, "payload keys must be \"true\" for boolean flags or a variant key"⟩
  refuse (maxPayloadBytes < encodedLength M payload)
    ⟨"filters.payloads." ++ key, "must be at most " ++ toString maxPayloadBytes ++ " bytes"⟩

def validatePayloads (multivariate : Option Multivariate) (keys : List String) : List (String × Value ν) → Except Invalid Unit
  | [] => .ok ()
  | (key, payload) :: payloads => do
    validatePayload M multivariate keys key payload
    validatePayloads multivariate keys payloads

/-- The keys that overrides and payloads may name. -/
def variantKeys : Option Multivariate → Except Invalid (List String)
  | some multivariate => validateMultivariate multivariate.variants
  | none => .ok []

/-- The length of the whole as JSON, or why it has none, is a parameter. -/
def validateFilters (encode : FlagFilters ν → Except String Nat) (now : DateTime) (filters : FlagFilters ν) : Except Invalid Unit := do
  let encoded ← (encode filters).mapError (Invalid.mk "filters")
  refuse (maxFiltersBytes < encoded) ⟨"filters", "must be at most " ++ toString maxFiltersBytes ++ " bytes"⟩
  refuse (maxGroups < filters.groups.length)
    ⟨"filters.groups", "at most " ++ toString maxGroups ++ " condition groups"⟩
  let keys ← variantKeys filters.multivariate
  validateGroups M now keys 0 filters.groups
  validatePayloads M filters.multivariate keys filters.payloads.members

def validateInput (encode : FlagFilters ν → Except String Nat) (now : DateTime) (input : FeatureFlagInput (FlagFilters ν)) :
    Except Invalid Unit := do
  validateKey input.key
  validateName input.name
  validateFilters M encode now input.filters

end filters

/-- What evaluations rely on in a definition that passed. -/
structure FlagFilters.Accepted {ν : Type} (filters : FlagFilters ν) : Prop where
  shares : ∀ multivariate ∈ filters.multivariate, ∀ variant ∈ multivariate.variants,
    0 ≤ variant.rolloutPercentage ∧ variant.rolloutPercentage ≤ 100
  unique : ∀ multivariate ∈ filters.multivariate, (multivariate.variants.map (·.key)).Nodup
  sum : ∀ multivariate ∈ filters.multivariate, |(multivariate.variants.map (·.rolloutPercentage)).sum - 100| ≤ variantSumEpsilon
  overrides : ∀ group ∈ filters.groups, ∀ key ∈ group.variant,
    ∃ multivariate ∈ filters.multivariate, ∃ variant ∈ multivariate.variants, variant.key = key

theorem validateVariant_ok {field : String} {keys : List String} {variant : FlagVariant} (h : validateVariant field keys variant = .ok ()) :
    (0 ≤ variant.rolloutPercentage ∧ variant.rolloutPercentage ≤ 100) ∧ variant.key ∉ keys := by
  simp only [validateVariant, bind_ok, percentage, refuse_ok, not_not] at h
  obtain ⟨-, -, -, -, -, hshare, hkey⟩ := h
  exact ⟨hshare, hkey⟩

/-- The loop over the variants: shares within bounds, new keys, and both totals. -/
theorem validateVariants_ok {variants : List FlagVariant} {index : Nat} {keys keys' : List String} {sum sum' : Rat}
    (h : validateVariants index keys sum variants = .ok (keys', sum')) :
    (∀ variant ∈ variants, 0 ≤ variant.rolloutPercentage ∧ variant.rolloutPercentage ≤ 100) ∧
      keys' = (variants.map (·.key)).reverse ++ keys ∧ sum' = sum + (variants.map (·.rolloutPercentage)).sum ∧
      (keys.Nodup → keys'.Nodup) := by
  induction variants generalizing index keys sum with
  | nil =>
    cases h
    simp
  | cons variant variants ih =>
    simp only [validateVariants, bind_ok] at h
    obtain ⟨⟨⟩, hvariant, hrest⟩ := h
    obtain ⟨hshare, hkey⟩ := validateVariant_ok hvariant
    obtain ⟨hshares, hkeys, hsum, hnodup⟩ := ih hrest
    refine ⟨List.forall_mem_cons.mpr ⟨hshare, hshares⟩, ?_, ?_, fun hold => hnodup (hold.cons hkey)⟩
    · rw [hkeys]
      simp
    · rw [hsum]
      simp only [List.map_cons, List.sum_cons]
      ring

theorem validateMultivariate_ok {variants : List FlagVariant} {keys : List String} (h : validateMultivariate variants = .ok keys) :
    (∀ variant ∈ variants, 0 ≤ variant.rolloutPercentage ∧ variant.rolloutPercentage ≤ 100) ∧
      (variants.map (·.key)).Nodup ∧ |(variants.map (·.rolloutPercentage)).sum - 100| ≤ variantSumEpsilon ∧
      ∀ key ∈ keys, ∃ variant ∈ variants, variant.key = key := by
  simp only [validateMultivariate, bind_ok, refuse_ok, pure_ok] at h
  obtain ⟨-, -, ⟨keys', sum⟩, hvariants, -, hsum, rfl⟩ := h
  obtain ⟨hshares, hkeys, rfl, hnodup⟩ := validateVariants_ok hvariants
  rw [List.append_nil] at hkeys
  refine ⟨hshares, ?_, ?_, ?_⟩
  · have hnodup := hnodup List.nodup_nil
    rw [hkeys] at hnodup
    exact List.nodup_reverse.mp hnodup
  · rw [zero_add] at hsum
    exact not_lt.mp hsum
  · intro key hkey
    rw [hkeys, List.mem_reverse, List.mem_map] at hkey
    exact hkey

section accepted
variable {ν ρ : Type} {M : Matchers ν ρ} {now : DateTime}

theorem validateGroups_ok {groups : List (FlagConditionGroup ν)} {keys : List String} {index : Nat}
    (h : validateGroups M now keys index groups = .ok ()) : ∀ group ∈ groups, ∀ key ∈ group.variant, key ∈ keys := by
  induction groups generalizing index with
  | nil => simp
  | cons group groups ih =>
    simp only [validateGroups, validateGroup, bind_ok, refuse_ok] at h
    obtain ⟨-, ⟨-, -, -, hvariant, -⟩, hrest⟩ := h
    refine List.forall_mem_cons.mpr ⟨?_, ih hrest⟩
    intro key hkey
    rw [hkey] at hvariant
    simpa using hvariant

theorem accepted_of_validate {encode : FlagFilters ν → Except String Nat} {filters : FlagFilters ν}
    (h : validateFilters M encode now filters = .ok ()) : filters.Accepted := by
  simp only [validateFilters, bind_ok, refuse_ok] at h
  obtain ⟨-, -, -, -, -, -, keys, hkeys, ⟨⟩, hgroups, -⟩ := h
  have hoverrides := validateGroups_ok hgroups
  cases hmultivariate : filters.multivariate with
  | none =>
    rw [hmultivariate, variantKeys] at hkeys
    cases hkeys
    refine ⟨by simp [hmultivariate], by simp [hmultivariate], by simp [hmultivariate], ?_⟩
    intro group hgroup key hkey
    exact absurd (hoverrides group hgroup key hkey) (by simp)
  | some multivariate =>
    rw [hmultivariate, variantKeys] at hkeys
    obtain ⟨hshares, hnodup, hsum, hnames⟩ := validateMultivariate_ok hkeys
    constructor
    · simpa [hmultivariate] using hshares
    · simpa [hmultivariate] using hnodup
    · simpa [hmultivariate] using hsum
    · intro group hgroup key hkey
      exact ⟨multivariate, hmultivariate, hnames key (hoverrides group hgroup key hkey)⟩

end accepted
end Hoglet.Flags
