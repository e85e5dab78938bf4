/-!
# The order of keys

The keys of a canonical schema object: the ones in `firstKeys` first and the ones in `lastKeys`
last, each group as listed, and between them all others in the order of code points. `precedes`
compares the `rank` of two keys, and the keys themselves where the rank is the same, which makes it
a total order.
-/

namespace ConfigSchema

namespace KeyOrder

def firstKeys : List String :=
  ["$schema", "$id", "$ref", "title", "deprecated", "description", "type", "required",
   "additionalProperties", "default", "items", "properties", "patternProperties", "allOf", "anyOf",
   "oneOf", "not", "format", "minimum", "exclusiveMinimum", "maximum", "exclusiveMaximum",
   "minLength", "maxLength", "multipleOf", "pattern"]

def lastKeys : List String := ["examples", "$defs"]

/-- The place of a key; keys that are not listed share one. -/
def rank (key : String) : Nat :=
  if key ∈ lastKeys then firstKeys.length + 1 + lastKeys.idxOf key else firstKeys.idxOf key

/-- Whether `a` may stand in front of `b`. -/
def precedes (a b : String) : Bool :=
  decide (rank a < rank b) || (rank a == rank b && decide (a ≤ b))

/-! ### A total order -/

theorem precedes_iff {a b : String} :
    precedes a b = true ↔ rank a < rank b ∨ rank a = rank b ∧ a ≤ b := by
  simp [precedes]

theorem precedes_total {a b : String} (h : precedes a b = false) : precedes b a = true := by
  have h : ¬ precedes a b = true := by simp [h]
  rw [precedes_iff] at h ⊢
  rcases Nat.lt_trichotomy (rank a) (rank b) with hlt | heq | hgt
  · exact absurd (.inl hlt) h
  · exact .inr ⟨heq.symm, (String.le_total a b).resolve_left fun hab => h (.inr ⟨heq, hab⟩)⟩
  · exact .inl hgt

theorem precedes_trans {a b c : String} (h₁ : precedes a b = true) (h₂ : precedes b c = true) :
    precedes a c = true := by
  rw [precedes_iff] at h₁ h₂ ⊢
  rcases h₁ with h₁ | ⟨h₁, hab⟩ <;> rcases h₂ with h₂ | ⟨h₂, hbc⟩
  · exact .inl (Nat.lt_trans h₁ h₂)
  · exact .inl (h₂ ▸ h₁)
  · exact .inl (h₁ ▸ h₂)
  · exact .inr ⟨h₁.trans h₂, String.le_trans hab hbc⟩

theorem precedes_antisymm {a b : String} (h₁ : precedes a b = true) (h₂ : precedes b a = true) :
    a = b := by
  rw [precedes_iff] at h₁ h₂
  rcases h₁ with h₁ | ⟨h₁, hab⟩ <;> rcases h₂ with h₂ | ⟨h₂, hba⟩
  · omega
  · omega
  · omega
  · exact String.le_antisymm hab hba

end KeyOrder

end ConfigSchema
