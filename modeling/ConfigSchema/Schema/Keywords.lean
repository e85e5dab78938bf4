import ConfigSchema.Json.Node
import ConfigSchema.Text.Names

/-!
# Keywords of a schema object

Accessors read a keyword when it has the shape they ask for, and take any other shape for its
absence.
-/

namespace ConfigSchema

namespace Object

def text? (o : Object) (key : String) : Option String := (o.get? key).bind Node.string?

def object? (o : Object) (key : String) : Option Object := (o.get? key).bind Node.object?

/-- The list under a keyword; without one there are no items. -/
def items (o : Object) (key : String) : List Node := ((o.get? key).bind Node.array?).getD []

/-- The type, when it is a single name. -/
def typeName? (o : Object) : Option String := o.text? "type"

def typeNames (o : Object) : List String :=
  match o.get? "type" with
  | some (.string s) => [s]
  | some (.array xs) => xs.filterMap Node.string?
  | _ => []

/-- Whether the type is the single name `null`. -/
def isNullType (o : Object) : Bool := o.typeName? == some "null"

def reference? (o : Object) : Option String := o.text? "$ref"

def title? (o : Object) : Option String := o.text? "title"

def description? (o : Object) : Option String := o.text? "description"

def alias? (o : Object) : Option String := o.text? "alias"

def properties? (o : Object) : Option Object := o.object? "properties"

def definitions? (o : Object) : Option Object := o.object? "$defs"

def itemSchema? (o : Object) : Option Object := o.object? "items"

/-- The properties; none without a map of them. -/
def properties (o : Object) : Object := o.properties?.getD []

def variants (o : Object) (key : String) : List Object := (o.items key).filterMap Node.object?

def required (o : Object) : List String :=
  Names.ofList ((o.items "required").filterMap Node.string?)

def examples (o : Object) : List Node := o.items "examples"

/-- The default, unless it is null. -/
def default? (o : Object) : Option Node := (o.get? "default").filter fun n => !n.isNull

/-! ### Parts are smaller -/

theorem sizeOf_lt_of_get? {o : Object} {key : String} {n : Node} (h : o.get? key = some n) :
    sizeOf n < sizeOf o := by
  have := List.sizeOf_lt_of_mem (Fields.mem_of_get? h)
  simp only [Prod.mk.sizeOf_spec] at this
  omega

theorem sizeOf_lt_of_object? {o p : Object} {key : String} (h : o.object? key = some p) :
    sizeOf p < sizeOf o := by
  obtain ⟨n, hn, hp⟩ := Option.bind_eq_some_iff.mp h
  have := sizeOf_lt_of_get? hn
  cases n <;> simp [Node.object?] at hp
  subst hp
  simp only [Node.object.sizeOf_spec] at this
  omega

theorem sizeOf_lt_of_mem_items {o : Object} {key : String} {n : Node} (h : n ∈ o.items key) :
    sizeOf n < sizeOf o := by
  unfold items at h
  cases hk : (o.get? key).bind Node.array? with
  | none => simp [hk] at h
  | some xs =>
    obtain ⟨m, hm, hxs⟩ := Option.bind_eq_some_iff.mp hk
    have h₁ := sizeOf_lt_of_get? hm
    cases m <;> simp [Node.array?] at hxs
    subst hxs
    have h₂ := List.sizeOf_lt_of_mem (a := n) (by simpa [hk] using h)
    simp only [Node.array.sizeOf_spec] at h₁
    omega

theorem sizeOf_lt_of_mem_variants {o p : Object} {key : String} (h : p ∈ o.variants key) :
    sizeOf p < sizeOf o := by
  obtain ⟨n, hn, hp⟩ := List.mem_filterMap.mp h
  have := sizeOf_lt_of_mem_items hn
  cases n <;> simp [Node.object?] at hp
  subst hp
  simp only [Node.object.sizeOf_spec] at this
  omega

end Object

end ConfigSchema
