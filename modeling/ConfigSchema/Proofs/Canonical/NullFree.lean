import ConfigSchema.Proofs.Canonical.Normal
import ConfigSchema.Proofs.Schema.Position

/-!
# No null is left

A canonical schema is free of null at every position (`nullFree_of_canonicalAt`): no default is
null, and a union lists objects, none of them of type null and never just one. Nothing has to be
said about how the unions give way one after the other: a schema at a position of a normal value is
normal itself, and a normal object is settled.
-/

namespace ConfigSchema

namespace Object

/-- Neither the default nor a union has to do with null, and no union has just one variant. -/
structure NullFree (o : Object) : Prop where
  default : Fields.get? o "default" ≠ some .null
  union : ∀ key ∈ ["anyOf", "allOf", "oneOf"], ∀ v, Fields.get? o key = some v →
    ∃ variants : List Object, v = .array (variants.map .object) ∧ variants.length ≠ 1 ∧
      ∀ variant ∈ variants, Fields.get? variant "type" ≠ some (.string "null")

/-- A canonical schema object, which is one whatever role asks for a schema. -/
def Normal (o : Object) : Prop := (Node.object o).Normal .schemaOrData

namespace Normal

variable {o p : Object}

theorem settled (h : o.Normal) : o.Settled := h.1

theorem entry (h : o.Normal) {key : String} {v : Node} (hv : Fields.get? o key = some v) :
    v.Normal (Role.ofKey key) :=
  Node.normalFields_iff.mp h.2 key v (Fields.mem_of_get? hv)

theorem subschema (h : o.Normal) (hp : o.Subschema p) : p.Normal := by
  cases hp with
  | @direct key hkey hp =>
    have hn := h.entry hp
    simp only [List.mem_cons, List.not_mem_nil, or_false] at hkey
    rcases hkey with rfl | rfl <;> exact hn
  | @named key name map hkey hmap hp =>
    have hn := h.entry hmap
    have hp := Fields.mem_of_get? hp
    simp only [List.mem_cons, List.not_mem_nil, or_false] at hkey
    rcases hkey with rfl | rfl | rfl <;> exact Node.normalFields_iff.mp hn.2 name _ hp
  | @variant key xs hkey hxs hp =>
    have hn := h.entry hxs
    rw [Role.ofKey_of_mem_unionKeys hkey] at hn
    exact (Node.normal_union_iff.mp hn _ hp).1

theorem position (h : o.Normal) (hp : o.Position p) : p.Normal :=
  hp.induct (fun _ _ hs h => h.subschema hs) h

theorem nullFree (h : o.Normal) : o.NullFree := by
  refine ⟨h.settled.default, fun key hkey v hv => ?_⟩
  have hn := h.entry hv
  rw [Role.ofKey_of_mem_unionKeys hkey] at hn
  cases v with
  | array xs =>
    have hxs := Node.normal_union_iff.mp hn
    obtain ⟨variants, rfl⟩ := Node.exists_map_object fun x hx => (hxs x hx).1.exists_object
    refine ⟨variants, rfl, fun hone => ?_, fun variant hvariant hnull => ?_⟩
    · obtain ⟨variant, rfl⟩ := List.length_eq_one_iff.mp hone
      exact h.settled.union key hkey _ hv
    · have := (hxs _ (List.mem_map_of_mem hvariant)).2
      simp [Node.isNullSchema, Node.object?, isNullType, typeName?, text?, hnull, Node.string?] at this
  | _ => exact absurd hn (by simp [Node.Normal, Role.unchanged])

end Normal

theorem normal_of_canonicalAt {x y : Object} {location : String} (hx : (Node.object x).Distinct)
    (h : x.canonicalAt location = .ok y) : y.Normal :=
  Node.normal_of_canonical hx (Node.canonical_root (canonicalAt_eq_ok_iff.mp h))

/-- No null is left anywhere in a canonical schema: at every schema position the default is not
null and every union is a list of objects, not just one, of which none has the type null. -/
theorem nullFree_of_canonicalAt {x y p : Object} {location : String}
    (hx : (Node.object x).Distinct) (h : x.canonicalAt location = .ok y) (hp : y.Position p) :
    p.NullFree := by
  have hy : Node.canonical .schemaOrData (.object x) = .ok (.object y) :=
    Result.map_eq_ok_iff.mpr ⟨y, canonicalAt_eq_ok_iff.mp h, rfl⟩
  have hn : y.Normal := Node.normal_of_canonical hx hy
  exact (hn.position hp).nullFree

theorem nullFree_of_canonicalAt_flatUnions :
    (Node.object nestedUnions).Distinct ∧ nestedUnions.canonicalAt "" = .ok flatUnions ∧
      flatUnions.Position [("type", .string "string")] ∧ NullFree [("type", .string "string")] := by
  have hx : (Node.object nestedUnions).Distinct := by decide
  have h : nestedUnions.canonicalAt "" = .ok flatUnions := rfl
  have hp : flatUnions.Subschema [("type", .string "string")] :=
    @Subschema.variant _ _ "anyOf" _ (by decide) rfl (List.mem_cons_self ..)
  exact ⟨hx, h, .single hp, nullFree_of_canonicalAt hx h (.single hp)⟩

end Object

end ConfigSchema
