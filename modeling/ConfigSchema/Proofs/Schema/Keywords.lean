import ConfigSchema.Json.Document
import ConfigSchema.Proofs.Json.Fields
import ConfigSchema.Schema.Keywords

/-!
# What keywords find

An accessor of a schema object finds what stands under its keyword in the shape it asks for. So what
holds of all objects in a schema holds of the objects that an accessor finds.
-/

namespace ConfigSchema

theorem Node.object?_eq_some_iff {n : Node} {o : Object} : n.object? = some o ↔ n = .object o := by
  cases n <;> simp [object?]

/-- An optional value is there and is an object. -/
theorem Node.bind_object?_eq_some_iff {n? : Option Node} {o : Object} :
    n?.bind object? = some o ↔ n? = some (.object o) := by
  cases n? with
  | none => simp
  | some n => rw [Option.bind_some, object?_eq_some_iff, Option.some.injEq]

namespace Object

variable {o p : Object} {key : String}

theorem object?_eq_some_iff : o.object? key = some p ↔ Fields.get? o key = some (.object p) :=
  Node.bind_object?_eq_some_iff

theorem text?_eq_some_iff {text : String} :
    o.text? key = some text ↔ Fields.get? o key = some (.string text) := by
  rw [text?, Option.bind_eq_some_iff]
  constructor
  · rintro ⟨n, hn, ht⟩
    cases n with
    | string => cases ht; exact hn
    | _ => cases ht
  · intro h
    exact ⟨_, h, rfl⟩

theorem mem_items_iff {n : Node} :
    n ∈ o.items key ↔ ∃ xs, Fields.get? o key = some (.array xs) ∧ n ∈ xs := by
  unfold items
  cases hget : Fields.get? o key with
  | none => simp
  | some m => cases m <;> simp [Node.array?]

theorem mem_variants_iff :
    p ∈ o.variants key ↔ ∃ xs, Fields.get? o key = some (.array xs) ∧ .object p ∈ xs := by
  simp only [variants, List.mem_filterMap, mem_items_iff]
  constructor
  · rintro ⟨n, ⟨xs, hxs, hn⟩, hp⟩
    rw [Node.object?_eq_some_iff.mp hp] at hn
    exact ⟨xs, hxs, hn⟩
  · rintro ⟨xs, hxs, hp⟩
    exact ⟨_, ⟨xs, hxs, hp⟩, rfl⟩

theorem mem_required_iff {name : String} :
    name ∈ o.required ↔ .string name ∈ o.items "required" := by
  rw [required, Names.mem_ofList, List.mem_filterMap]
  constructor
  · rintro ⟨n, hn, hname⟩
    cases n with
    | string => cases hname; exact hn
    | _ => cases hname
  · intro h
    exact ⟨_, h, rfl⟩

end Object

namespace Node.Everywhere

variable {Q : Object → Prop} {o p : Object} {key : String}

theorem object? (h : (object o).Everywhere Q) (hp : Object.object? o key = some p) :
    (object p).Everywhere Q :=
  h.entry (Fields.mem_of_get? (Object.object?_eq_some_iff.mp hp))

theorem variant (h : (object o).Everywhere Q) (hp : p ∈ Object.variants o key) :
    (object p).Everywhere Q := by
  obtain ⟨xs, hxs, hp⟩ := Object.mem_variants_iff.mp hp
  exact (h.entry (Fields.mem_of_get? hxs)).item hp

theorem property (h : (object o).Everywhere Q) {k : String} {v : Node}
    (hv : (k, v) ∈ Object.properties o) : v.Everywhere Q := by
  unfold Object.properties at hv
  cases hps : Object.properties? o with
  | none => rw [hps] at hv; cases hv
  | some properties =>
    rw [hps] at hv
    exact (h.object? hps).entry hv

end Node.Everywhere

end ConfigSchema
