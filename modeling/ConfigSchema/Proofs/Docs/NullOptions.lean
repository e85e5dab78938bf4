import ConfigSchema.Canonical.Form
import ConfigSchema.Proofs.Docs.Label
import ConfigSchema.Proofs.Schema.Keywords
import Mathlib.Logic.Relation

/-!
# Null in type labels

A label says nothing about null: a variant of type null is no option, and `null` is not among the
names of a type. So null can be deleted wherever the label of a field is read from, in the unions,
the lists of type names and the item schemas at any depth (`Object.withoutNulls`), and the label
stays what it is, with one exception. The union is chosen while null is still in it. An `anyOf` of
nothing but null is therefore chosen before a `oneOf` with options, which are passed over; once null
is deleted they are found (`Object.Masked`). Without such an object among those that the label is
made of, the label is the same (`Object.label_withoutNulls_of_not_masked`).
-/

namespace ConfigSchema

/-- What the label of a field takes a value for. -/
inductive Reading where
  /-- A schema with a label of its own. -/
  | schema
  /-- A list of schemas. -/
  | options
  /-- One name or a list of names. -/
  | names
  /-- Nothing that null can be deleted from. -/
  | other
deriving DecidableEq, Repr

def Reading.ofKey (key : String) : Reading :=
  if key = "items" then .schema
  else if key = "anyOf" ∨ key = "oneOf" then .options
  else if key = "type" then .names
  else .other

namespace Node

mutual

/-- A value without null, in what is read as a schema. -/
def withoutNulls (reading : Reading) : Node → Node
  | object fs => object (if reading = .schema then withoutNullsFields fs else fs)
  | array xs =>
    array (match reading with
      | .options => withoutNullsOptions xs
      | .names => xs.filter fun x => x.string? ≠ some "null"
      | _ => xs)
  | n => n

def withoutNullsOptions : List Node → List Node
  | [] => []
  | x :: xs =>
    if x.isNullSchema then withoutNullsOptions xs
    else x.withoutNulls .schema :: withoutNullsOptions xs

def withoutNullsFields : Object → Object
  | [] => []
  | (k, v) :: fs => (k, v.withoutNulls (.ofKey k)) :: withoutNullsFields fs

end

theorem withoutNullsFields_eq (fs : Object) :
    withoutNullsFields fs = Fields.mapEntries (fun k v => v.withoutNulls (.ofKey k)) fs := by
  induction fs with
  | nil => rfl
  | cons e fs ih => exact congrArg ((e.1, e.2.withoutNulls (.ofKey e.1)) :: ·) ih

end Node

namespace Object

variable {s : Schema} {o f p : Object} {key : String}

/-- A field without null: its unions have no variant of type null, its lists of type names do not
have the name, and likewise in the variants and the item schema. -/
def withoutNulls (o : Object) : Object := Node.withoutNullsFields o

theorem get?_withoutNulls (o : Object) (key : String) : Fields.get? o.withoutNulls key =
    (Fields.get? o key).map (Node.withoutNulls (.ofKey key)) := by
  rw [withoutNulls, Node.withoutNullsFields_eq, Fields.get?_mapEntries]

theorem text?_withoutNulls (o : Object) (key : String) :
    o.withoutNulls.text? key = o.text? key := by
  rw [text?, text?, get?_withoutNulls]
  cases Fields.get? o key with
  | none => rfl
  | some n => cases n <;> rfl

theorem reference?_withoutNulls (o : Object) : o.withoutNulls.reference? = o.reference? :=
  text?_withoutNulls o "$ref"

theorem isNullType_withoutNulls (o : Object) : o.withoutNulls.isNullType = o.isNullType :=
  congrArg (· == some "null") (text?_withoutNulls o "type")

theorem itemSchema?_withoutNulls (o : Object) :
    o.withoutNulls.itemSchema? = o.itemSchema?.map withoutNulls := by
  rw [itemSchema?, itemSchema?, object?, object?, get?_withoutNulls]
  cases Fields.get? o "items" with
  | none => rfl
  | some n => cases n <;> rfl

theorem filter_filterMap_string? (xs : List Node) :
    ((xs.filter fun x => x.string? ≠ some "null").filterMap Node.string?).filter (· ≠ "null") =
      (xs.filterMap Node.string?).filter (· ≠ "null") := by
  induction xs with
  | nil => rfl
  | cons x xs ih =>
    cases hx : x.string? with
    | none => simpa [List.filter_cons, hx] using ih
    | some name =>
      by_cases hname : name = "null" <;> simpa [List.filter_cons, hx, hname] using ih

theorem realNames_withoutNulls (o : Object) : o.withoutNulls.realNames = o.realNames := by
  rw [realNames, realNames, typeNames, typeNames, get?_withoutNulls]
  cases Fields.get? o "type" with
  | none => rfl
  | some n =>
    cases n with
    | array xs => exact filter_filterMap_string? xs
    | _ => rfl

/-! ### Options -/

/-- The variants of a union whose type is not null. -/
def realVariants (o : Object) (key : String) : List Object :=
  (o.variants key).filter fun v => !v.isNullType

theorem filterMap_object?_withoutNullsOptions (xs : List Node) :
    (Node.withoutNullsOptions xs).filterMap Node.object? =
      ((xs.filterMap Node.object?).filter fun v => !v.isNullType).map withoutNulls := by
  induction xs with
  | nil => rfl
  | cons x xs ih =>
    rw [Node.withoutNullsOptions]
    cases x with
    | object fs =>
      cases hnull : isNullType fs with
      | true => simpa [Node.isNullSchema, Node.object?, hnull] using ih
      | false =>
        simp [Node.isNullSchema, Node.object?, hnull, ih, Node.withoutNulls, withoutNulls]
    | _ => exact ih

theorem variants_withoutNulls (hkey : Reading.ofKey key = .options) :
    o.withoutNulls.variants key = (o.realVariants key).map withoutNulls := by
  rw [realVariants, variants, variants, items, items, get?_withoutNulls, hkey]
  cases Fields.get? o key with
  | none => rfl
  | some n =>
    cases n with
    | array xs => exact filterMap_object?_withoutNullsOptions xs
    | _ => rfl

theorem realVariants_withoutNulls (hkey : Reading.ofKey key = .options) :
    o.withoutNulls.realVariants key = (o.realVariants key).map withoutNulls := by
  rw [realVariants, variants_withoutNulls hkey, List.filter_eq_self]
  intro v hv
  obtain ⟨w, hw, rfl⟩ := List.mem_map.mp hv
  rw [isNullType_withoutNulls]
  exact (List.mem_filter.mp hw).2

/-- The union that is chosen for the type of the object is an `anyOf` of nothing but null, and there
are options in `oneOf`. -/
structure Masked (o : Object) : Prop where
  plain : o.reference? = none
  chosen : o.variants "anyOf" ≠ []
  null : o.realVariants "anyOf" = []
  hidden : o.realVariants "oneOf" ≠ []

theorem typeOptions_eq (o : Object) : o.typeOptions =
    if o.variants "anyOf" = [] then o.realVariants "oneOf" else o.realVariants "anyOf" := by
  show o.realVariants o.unionKey = _
  rw [unionKey]
  simp only [List.isEmpty_iff]
  split <;> rfl

theorem typeOptions_withoutNulls_eq (o : Object) : o.withoutNulls.typeOptions =
    (if o.realVariants "anyOf" = [] then o.realVariants "oneOf"
      else o.realVariants "anyOf").map withoutNulls := by
  have hany : Reading.ofKey "anyOf" = .options := rfl
  have hone : Reading.ofKey "oneOf" = .options := rfl
  rw [typeOptions_eq, realVariants_withoutNulls hany, realVariants_withoutNulls hone,
    variants_withoutNulls hany]
  simp only [List.map_eq_nil_iff]
  split <;> rfl

theorem typeOptions_withoutNulls (href : o.reference? = none) (h : ¬ o.Masked) :
    o.withoutNulls.typeOptions = o.typeOptions.map withoutNulls := by
  rw [typeOptions_withoutNulls_eq, typeOptions_eq]
  -- the choice is the same unless there are variants of `anyOf` and all of them are null
  by_cases hchosen : o.variants "anyOf" = []
  · have hnull : o.realVariants "anyOf" = [] := by rw [realVariants, hchosen]; rfl
    rw [if_pos hchosen, if_pos hnull]
  · rw [if_neg hchosen]
    by_cases hnull : o.realVariants "anyOf" = []
    · have hhidden : o.realVariants "oneOf" = [] := by
        by_contra hhidden
        exact h ⟨href, hchosen, hnull, hhidden⟩
      rw [if_pos hnull, hhidden, hnull]
    · rw [if_neg hnull]

/-! ### What a label is read from -/

theorem label_withoutNulls_of_options (href : o.reference? = none) (h : ¬ o.Masked)
    (hoptions : o.typeOptions ≠ []) : o.withoutNulls.label s =
      (o.typeOptions.mapM fun p => label s p.withoutNulls).map .options := by
  have hoptions' := typeOptions_withoutNulls href h
  have hne : o.withoutNulls.typeOptions ≠ [] := by
    rw [hoptions']
    exact mt List.map_eq_nil_iff.mp hoptions
  rw [label_of_options ((reference?_withoutNulls o).trans href) hne, hoptions', List.mapM_map]
  rfl

theorem label_withoutNulls_of_names (href : o.reference? = none) (h : ¬ o.Masked)
    (hoptions : o.typeOptions = []) : o.withoutNulls.label s =
      namesLabel o.realNames (o.itemSchema?.map fun p => label s p.withoutNulls) := by
  have hnil : o.withoutNulls.typeOptions = [] := by
    rw [typeOptions_withoutNulls href h, hoptions]
    rfl
  rw [label_of_names ((reference?_withoutNulls o).trans href) hnil, realNames_withoutNulls,
    itemSchema?_withoutNulls, Option.map_map]
  rfl

/-- The label of `o` is made of that of `p`. -/
inductive Reads (o p : Object) : Prop
  | option (href : o.reference? = none) (h : p ∈ o.typeOptions)
  | item (href : o.reference? = none) (hoptions : o.typeOptions = [])
      (hnames : o.realNames = ["array"]) (h : o.itemSchema? = some p)

/-- `p` is `o` or one of the objects inside it that its label is made of. -/
def Sees : Object → Object → Prop := Relation.ReflTransGen Reads

/-- Deleting null leaves alone what can be read off a label part by part, if it does so for every
object behind an `anyOf` of nothing but null that the label is made of. -/
theorem map_label_withoutNulls {f : Object} {β : Type} {view : Label → β}
    (hlist : ∀ l l', view l = view l' → view (.list l) = view (.list l'))
    (hoptions : ∀ ls ls', ls.map view = ls'.map view → view (.options ls) = view (.options ls'))
    (h : ∀ p, f.Sees p → p.Masked → (p.withoutNulls.label s).map view = (p.label s).map view) :
    (f.withoutNulls.label s).map view = (f.label s).map view := by
  by_cases hmasked : f.Masked
  · exact h f .refl hmasked
  cases href : f.reference? with
  | some reference =>
    have href' := (reference?_withoutNulls f).trans href
    rw [label_of_reference href, label_of_reference href']
  | none =>
    by_cases hnil : f.typeOptions = []
    · rw [label_withoutNulls_of_names href hmasked hnil, label_of_names href hnil]
      refine map_namesLabel_congr hlist fun hnames items hitems => ?_
      have := sizeOf_lt_of_object? hitems
      have hread : f.Reads items := .item href hnil hnames hitems
      exact map_label_withoutNulls hlist hoptions fun p hp => h p (.head hread hp)
    · rw [label_withoutNulls_of_options href hmasked hnil, label_of_options href hnil,
        Result.map_map, Result.map_map]
      refine Result.map_congr_of_map hoptions ?_
      rw [Result.map_mapM, Result.map_mapM]
      refine Result.mapM_congr fun option hoption => ?_
      have := sizeOf_lt_of_mem_typeOptions hoption
      have hread : f.Reads option := .option href hoption
      exact map_label_withoutNulls hlist hoptions fun p hp => h p (.head hread hp)
termination_by sizeOf f

theorem label_withoutNulls_of_not_masked (h : ∀ p, f.Sees p → ¬ p.Masked) :
    f.withoutNulls.label s = f.label s := by
  have hlabel := @map_label_withoutNulls s f Label id (fun _ _ h => congrArg Label.list h)
    (fun ls ls' h => by rw [← List.map_id ls, h, List.map_id])
    fun p hp hmasked => absurd hmasked (h p hp)
  rw [Except.map_id] at hlabel
  exact hlabel

instance : DecidablePred Masked := fun o =>
  decidable_of_iff (o.reference? = none ∧ (o.variants "anyOf").isEmpty = false ∧
      (o.realVariants "anyOf").isEmpty = true ∧ (o.realVariants "oneOf").isEmpty = false) <| by
    constructor
    · rintro ⟨hplain, hchosen, hnull, hhidden⟩
      exact ⟨hplain, List.isEmpty_eq_false_iff.mp hchosen, List.isEmpty_iff.mp hnull,
        List.isEmpty_eq_false_iff.mp hhidden⟩
    · rintro ⟨hplain, hchosen, hnull, hhidden⟩
      exact ⟨hplain, List.isEmpty_eq_false_iff.mpr hchosen, List.isEmpty_iff.mpr hnull,
        List.isEmpty_eq_false_iff.mpr hhidden⟩

/-- What a label is made of stands inside the field. -/
theorem Sees.everywhere {Q : Object → Prop} (hp : f.Sees p) (h : (Node.object f).Everywhere Q) :
    (Node.object p).Everywhere Q := by
  induction hp with
  | refl => exact h
  | tail _ hread ih =>
    cases hread with
    | option _ hq => exact ih.variant (List.mem_filter.mp hq).1
    | item _ _ _ hitems => exact ih.object? hitems

end Object

end ConfigSchema
