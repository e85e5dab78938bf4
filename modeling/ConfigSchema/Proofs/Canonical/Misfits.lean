import ConfigSchema.Proofs.Canonical.Inspection
import ConfigSchema.Proofs.Schema.Shape

/-!
# Where misfits come from

An entry that is looked at fails for a value of the wrong shape in it, or for a schema directly
inside that fails itself (`canonical_entry_error`), and it never succeeds with one of them
(`Misshapen.exists_not_canonical`, `SubschemaAt.exists_canonical`). Going down with the first to the
end, a misfit is a value of the wrong shape in the schema as it was written, and its path leads
there (`canonicalAt_cases`). The second says that such a value is fatal wherever it is looked at
(`exists_canonicalAt_iff`); what an inlined variant replaces before its turn is not.
-/

namespace ConfigSchema

namespace Role

theorem eq_of_unchanged_eq_error {role : Role} {n : Node} {m : Misfit}
    (h : role.unchanged n = .error m) : m = ⟨[], role.expected⟩ := by
  unfold unchanged at h
  split at h <;> cases h
  rfl

end Role

/-- Below the root the location of a misfit is the pointer to it. -/
theorem Misfit.toError_of_path_ne_nil (m : Misfit) (h : m.path ≠ []) (location : String) :
    m.toError location = .malformed (location ++ Pointer.ofTokens m.path) m.expected := by
  have hempty : (location ++ Pointer.ofTokens m.path).isEmpty = false := by
    obtain ⟨token, tokens, hpath⟩ := List.exists_cons_of_ne_nil h
    rw [← Pointer.foldl_child, ← Bool.not_eq_true, String.isEmpty_iff, ← String.toList_inj,
      Pointer.toList_foldl_child, hpath]
    simp [Pointer.spell]
  rw [toError, SchemaError.malformedAt, Pointer.foldl_child, hempty]
  rfl

namespace Node

variable {role member : Role} {n v : Node} {m : Misfit} {map : Object} {xs : List Node}

theorem canonical_schema_error (hrole : role.TakesSchema) (h : v.canonical role = .error m) :
    (∃ p : Object, v = .object p ∧ p.canonical = .error m) ∨
      (v.object? = none ∧ role.unchanged v = .error m) := by
  cases v with
  | object p =>
    rw [canonical_of_takesSchema hrole] at h
    exact .inl ⟨p, rfl, Result.map_eq_error_iff.mp h⟩
  | array xs =>
    cases role with
    | union => exact hrole.elim
    | _ => exact .inr ⟨rfl, h⟩
  | _ => exact .inr ⟨rfl, h⟩

theorem canonical_member_error (hmember : role.member? = some member) (hd : Fields.Distinct map)
    (h : (object map).canonical role = .error m) :
    ∃ name w m', Fields.get? map name = some w ∧ w.canonical member = .error m' ∧
      m'.under name = m := by
  rw [canonical_of_member hmember, Result.map_eq_error_iff] at h
  obtain ⟨name, hname⟩ := Fields.mem_of_gather_eq_error h
  have hname := Fields.get?_of_mem (distinct_canonicalFields hd) (Fields.mem_sortBy.mp hname)
  rw [get?_canonicalFields] at hname
  obtain ⟨w, hw, hwm⟩ := Option.map_eq_some_iff.mp hname
  obtain ⟨m', hm', hm⟩ := Result.mapError_eq_error_iff.mp hwm
  exact ⟨name, w, m', hw, hm', hm⟩

theorem exists_canonical_of_member (hmember : role.member? = some member)
    (h : (object map).canonical role = .ok n) {name : String} {w : Node}
    (hw : Fields.get? map name = some w) : ∃ w', w.canonical member = .ok w' := by
  obtain ⟨_, -, -, hmembers⟩ := exists_entries_of_member hmember h
  obtain ⟨w', -, hw'⟩ := hmembers name w hw
  exact ⟨w', hw'⟩

theorem canonicalItems_eq_mapIdx (index : Nat) (xs : List Node) :
    canonicalItems index xs = xs.mapIdx fun i x =>
      (x.canonical (.schema .schemaObject)).mapError (Misfit.under (toString (index + i))) := by
  induction xs generalizing index with
  | nil => rfl
  | cons x xs ih =>
    rw [canonicalItems, List.mapIdx_cons, ih (index + 1)]
    simp only [Nat.add_zero, Nat.add_assoc, Nat.add_comm 1]

theorem mem_of_gatherItems_eq_error {rs : List (Except Misfit Node)}
    (h : gatherItems rs = .error m) : .error m ∈ rs := by
  induction rs with
  | nil => cases h
  | cons r rs ih =>
    cases r with
    | error m' =>
      cases h
      exact List.mem_cons_self ..
    | ok v =>
      cases hg : gatherItems rs with
      | ok vs => simp [gatherItems, hg, bind, Except.bind, pure, Except.pure] at h
      | error m' =>
        have hm : m' = m := by simpa [gatherItems, hg, bind, Except.bind] using h
        exact List.mem_cons_of_mem _ (ih (hm ▸ hg))

theorem canonical_union_error (h : (array xs).canonical .union = .error m) :
    ∃ (i : Nat) (x : Node) (m' : Misfit), xs[i]? = some x ∧
      x.canonical (.schema .schemaObject) = .error m' ∧ m'.under (toString i) = m := by
  rw [canonical, Result.map_eq_error_iff] at h
  have hmem := mem_of_gatherItems_eq_error h
  rw [canonicalItems_eq_mapIdx] at hmem
  obtain ⟨i, hi, him⟩ := List.mem_mapIdx.mp hmem
  obtain ⟨m', hm', hm⟩ := Result.mapError_eq_error_iff.mp him
  rw [Nat.zero_add] at hm
  exact ⟨i, xs[i], m', List.getElem?_eq_getElem hi, hm', hm⟩

theorem exists_canonical_of_item (h : (array xs).canonical .union = .ok n) {x : Node}
    (hx : x ∈ xs) : ∃ x', x.canonical (.schema .schemaObject) = .ok x' := by
  obtain ⟨vs, hvs, -⟩ := canonical_union_eq_ok_iff.mp h
  obtain ⟨x', -, hx'⟩ := Result.exists_of_mem hvs hx
  exact ⟨x', hx'⟩

end Node

namespace Object

variable {o p : Object} {key : String} {path : List String} {v : Node} {m : Misfit}

/-- `m` is the misfit of a schema directly inside the entry. -/
def FailsInside (o : Object) (key : String) (m : Misfit) : Prop :=
  ∃ path p m', o.SubschemaAt key path p ∧ p.canonical = .error m' ∧
    m = ⟨path ++ m'.path, m'.expected⟩

/-- A schema in an entry of its own fails where it should be an object and is none, or as a schema
that fails. -/
theorem canonical_direct_error {role : Role} (hrole : role.TakesSchema)
    (hkey : key ∈ ["items", "additionalProperties"]) (hv : Fields.get? o key = some v)
    (h : v.canonical role = .error m) :
    (v.object? = none ∧ role.unchanged v = .error m ∧ m = ⟨[], role.expected⟩) ∨
      o.FailsInside key m := by
  rcases Node.canonical_schema_error hrole h with ⟨p, rfl, hp⟩ | ⟨hobject, hunchanged⟩
  · exact .inr ⟨[], p, m, .direct hkey hv, hp, rfl⟩
  · exact .inl ⟨hobject, hunchanged, Role.eq_of_unchanged_eq_error hunchanged⟩

/-- A member of a map fails where it should be an object and is none, or is a schema that fails. -/
theorem canonical_named_error {role member : Role} (hmember : role.member? = some member)
    (hkey : key ∈ ["properties", "$defs", "patternProperties"]) {map : Object}
    (hmap : Fields.get? o key = some (.object map)) (hd : Fields.Distinct map)
    (h : (Node.object map).canonical role = .error m) :
    (∃ name w, Fields.get? map name = some w ∧ w.object? = none ∧
      member.unchanged w = .error ⟨[], member.expected⟩ ∧ m = ⟨[name], member.expected⟩) ∨
      o.FailsInside key m := by
  obtain ⟨name, w, m', hw, hm', rfl⟩ := Node.canonical_member_error hmember hd h
  have hschema : member.TakesSchema := by
    cases role with
    | namedSchemas | patternSchemas => cases hmember; trivial
    | _ => cases hmember
  rcases Node.canonical_schema_error hschema hm' with ⟨p, rfl, hp⟩ | ⟨hobject, hunchanged⟩
  · exact .inr ⟨[name], p, m', .named hkey hmap hw, hp, rfl⟩
  · cases Role.eq_of_unchanged_eq_error hunchanged
    exact .inl ⟨name, w, hw, hobject, hunchanged, rfl⟩

/-- A variant of a union fails where it should be an object and is none, or is a schema that
fails. -/
theorem canonical_variant_error (hkey : key ∈ Drafts.unionKeys) {xs : List Node}
    (hxs : Fields.get? o key = some (.array xs)) (h : (Node.array xs).canonical .union = .error m) :
    (∃ w, o.Misshapen key m.path w m.expected) ∨ o.FailsInside key m := by
  obtain ⟨i, x, m', hx, hm', rfl⟩ := Node.canonical_union_error h
  rcases @Node.canonical_schema_error (.schema .schemaObject) _ _ trivial hm' with
    ⟨p, rfl, hp⟩ | ⟨hobject, hunchanged⟩
  · exact .inr ⟨[toString i], p, m', .variant hkey hxs hx, hp, rfl⟩
  · cases Role.eq_of_unchanged_eq_error hunchanged
    exact .inl ⟨x, .variant hkey hxs hx hobject⟩

/-- An entry fails for a value of the wrong shape in it, or for a schema directly inside it. -/
theorem canonical_entry_error (ho : (Node.object o).Distinct) (hv : Fields.get? o key = some v)
    (h : v.canonical (Role.ofKey key) = .error m) :
    (∃ w, o.Misshapen key m.path w m.expected) ∨ o.FailsInside key m := by
  rcases Role.ofKey_cases key with ⟨rfl, hrole⟩ | ⟨hkey, hrole⟩ | ⟨rfl, hrole⟩ | ⟨rfl, hrole⟩ |
    ⟨hkey, hrole⟩ | hrole <;> rw [hrole] at h
  · -- items
    rcases @canonical_direct_error _ _ _ _ (.schema .itemsSchema) trivial (by decide) hv h with
      ⟨hobject, -, rfl⟩ | h
    · exact .inl ⟨v, .items hv hobject⟩
    · exact .inr h
  · -- maps whose members may be data
    cases v with
    | object map =>
      have hkey : key ∈ ["properties", "$defs", "patternProperties"] :=
        List.mem_append_left ["patternProperties"] hkey
      rcases canonical_named_error rfl hkey hv (ho.get? hv).keys h with ⟨_, _, _, _, h, _⟩ | h
      · cases h
      · exact .inr h
    | _ => cases h
  · -- patterns
    cases v with
    | object map =>
      rcases canonical_named_error rfl (by decide) hv (ho.get? hv).keys h with
        ⟨name, w, hw, hobject, -, rfl⟩ | h
      · exact .inl ⟨w, .pattern hv hw hobject⟩
      · exact .inr h
    | _ =>
      cases h
      exact .inl ⟨_, .patterns hv rfl⟩
  · -- additional properties
    rcases @canonical_direct_error _ _ _ _ .schemaOrFlag trivial (by decide) hv h with
      ⟨hobject, hunchanged, rfl⟩ | h
    · refine .inl ⟨v, .additional hv hobject ?_⟩
      rintro b rfl
      cases hunchanged
    · exact .inr h
  · -- unions
    cases v with
    | array xs => exact canonical_variant_error hkey hv h
    | _ =>
      cases h
      exact .inl ⟨_, .union hkey hv rfl⟩
  · rw [Node.canonical_data] at h
    cases h

theorem SubschemaAt.exists_canonical (hp : o.SubschemaAt key path p)
    (h : ∀ v, Fields.get? o key = some v → ∃ n, v.canonical (Role.ofKey key) = .ok n) :
    ∃ p', p.canonical = .ok p' := by
  have hschema {role : Role} {n : Node} (hrole : role.TakesSchema)
      (h : (Node.object p).canonical role = .ok n) : ∃ p', p.canonical = .ok p' := by
    rw [Node.canonical_of_takesSchema hrole] at h
    obtain ⟨p', hp', -⟩ := Result.map_eq_ok_iff.mp h
    exact ⟨p', hp'⟩
  cases hp with
  | direct hkey hp =>
    obtain ⟨n, hn⟩ := h _ hp
    exact hschema (Role.takesSchema_of_mem hkey) hn
  | named hkey hmap hp =>
    obtain ⟨n, hn⟩ := h _ hmap
    obtain ⟨member, hmember, htakes⟩ := Role.exists_member_of_mem hkey
    obtain ⟨w, hw⟩ := Node.exists_canonical_of_member hmember hn hp
    exact hschema htakes hw
  | variant hkey hxs hp =>
    obtain ⟨n, hn⟩ := h _ hxs
    rw [Role.ofKey_of_mem_unionKeys hkey] at hn
    obtain ⟨w, hw⟩ := Node.exists_canonical_of_item hn (List.mem_of_getElem? hp)
    exact @hschema (.schema .schemaObject) w trivial hw

/-- An entry with a value of the wrong shape in it has no canonical form. -/
theorem Misshapen.exists_not_canonical {w : Node} {expected : Expectation}
    (hw : o.Misshapen key path w expected) :
    ∃ v, Fields.get? o key = some v ∧ ∀ n, v.canonical (Role.ofKey key) ≠ .ok n := by
  have hmember (hnone : w.object? = none) (expected : Expectation) (n : Node) :
      w.canonical (.schema expected) ≠ .ok n := by
    cases w with
    | object => cases hnone
    | _ => intro h; cases h
  cases hw with
  | union hkey hw hnone =>
    refine ⟨w, hw, fun n h => ?_⟩
    rw [Role.ofKey_of_mem_unionKeys hkey] at h
    cases w with
    | array => cases hnone
    | _ => cases h
  | variant hkey hxs hw hnone =>
    refine ⟨_, hxs, fun n h => ?_⟩
    rw [Role.ofKey_of_mem_unionKeys hkey] at h
    obtain ⟨w', hw'⟩ := Node.exists_canonical_of_item h (List.mem_of_getElem? hw)
    exact hmember hnone _ _ hw'
  | items hw hnone => exact ⟨w, hw, hmember hnone .itemsSchema⟩
  | patterns hw hnone =>
    refine ⟨w, hw, fun n h => ?_⟩
    cases w with
    | object => cases hnone
    | _ => cases h
  | pattern hmap hw hnone =>
    refine ⟨_, hmap, fun n h => ?_⟩
    obtain ⟨w', hw'⟩ := @Node.exists_canonical_of_member .patternSchemas _ _ _ rfl h _ _ hw
    exact hmember hnone _ _ hw'
  | additional hw hnone hflag =>
    refine ⟨w, hw, fun n h => ?_⟩
    cases w with
    | object => cases hnone
    | bool b => exact hflag b rfl
    | _ => cases h

/-! ### From a misfit to where it stands -/

/-- `p` is looked at on the way down from `o`: it is `o`, or it stands in an entry of something that
is looked at, and no inlined variant replaces that entry. -/
def Inspected : Object → Object → Prop :=
  Relation.ReflTransGen fun o p => ∃ key path, o.SubschemaAt key path p ∧ ¬ o.Replaced key

/-- At the end of the path stands, at a schema position of `o`, a value of the wrong shape. -/
def MisfitAt (o : Object) (path : List String) (v : Node) (expected : Expectation) : Prop :=
  ∃ base p key rest, path = base ++ key :: rest ∧ o.PositionAt base p ∧
    p.Misshapen key rest v expected

theorem SubschemaAt.distinct (h : o.SubschemaAt key path p) (ho : (Node.object o).Distinct) :
    (Node.object p).Distinct := by
  cases h with
  | direct hkey h => exact ho.get? h
  | named hkey hmap h => exact (ho.get? hmap).get? h
  | variant hkey hxs h => exact (ho.get? hxs).item (List.mem_of_getElem? h)

/-- An object fails for a value of the wrong shape in an entry that is looked at, or for a schema in
such an entry. -/
theorem canonical_error_step (ho : (Node.object o).Distinct) (h : o.canonical = .error m) :
    ∃ key, ¬ o.Replaced key ∧
      ((∃ path v, m.path = key :: path ∧ o.Misshapen key path v m.expected) ∨
        ∃ path p m', m = ⟨key :: (path ++ m'.path), m'.expected⟩ ∧ o.SubschemaAt key path p ∧
          p.canonical = .error m') := by
  rcases canonical_cases ho with ⟨o', ho', -⟩ | ⟨key, v, m', herr, hkey, hv, hm'⟩
  · rw [ho'] at h
    cases h
  · obtain rfl : m'.under key = m := Except.error.inj (herr.symm.trans h)
    refine ⟨key, hkey, ?_⟩
    rcases canonical_entry_error ho hv hm' with ⟨w, hw⟩ | ⟨path, p, m'', hp, hm'', rfl⟩
    · exact .inl ⟨m'.path, w, rfl, hw⟩
    · exact .inr ⟨path, p, m'', rfl, hp, hm''⟩

/-- Whatever an object fails for is a value of the wrong shape, in an entry that is looked at, of a
schema that is looked at. -/
theorem canonical_error_run (ho : (Node.object o).Distinct) (h : o.canonical = .error m) :
    ∃ base p key rest v, m.path = base ++ key :: rest ∧ o.PositionAt base p ∧ o.Inspected p ∧
      ¬ p.Replaced key ∧ p.Misshapen key rest v m.expected := by
  induction o using induct_inside generalizing m with
  | step o ih =>
    obtain ⟨key, hkey, ⟨path, v, hpath, hv⟩ | ⟨path, q, m', rfl, hq, hm'⟩⟩ :=
      canonical_error_step ho h
    · exact ⟨[], o, key, path, v, hpath, .root o, .refl, hkey, hv⟩
    · obtain ⟨base, p, key', rest, v, hpath, hat, hp, hkey', hv⟩ :=
        ih key path q hq (hq.distinct ho) hm'
      refine ⟨key :: (path ++ base), p, key', rest, v, ?_, .inside hq hat, ?_, hkey', hv⟩
      · simp [hpath]
      · exact .head ⟨key, path, hq, hkey⟩ hp

/-- A schema has a canonical form whatever its location is, or the error names, below the location,
the place of a value in the schema as it was written that is of the wrong shape there. -/
theorem canonicalAt_cases (ho : (Node.object o).Distinct) :
    (∃ o', ∀ location, o.canonicalAt location = .ok o') ∨
      ∃ path v expected, o.MisfitAt path v expected ∧
        (Node.object o).at? (Pointer.ofTokens path) = some v ∧
        ∀ location, o.canonicalAt location =
          .error (.malformed (location ++ Pointer.ofTokens path) expected) := by
  cases hcanonical : o.canonical with
  | ok o' => exact .inl ⟨o', fun location => canonicalAt_eq_ok_iff.mpr hcanonical⟩
  | error m =>
    obtain ⟨base, p, key, rest, v, hpath, hat, -, -, hv⟩ := canonical_error_run ho hcanonical
    refine .inr ⟨m.path, v, m.expected, ⟨base, p, key, rest, hpath, hat, hv⟩, ?_, fun location => ?_⟩
    · rw [Node.at?_ofTokens, hpath, Node.follow_append, hat.follow]
      exact hv.follow
    · have hne : m.path ≠ [] := by simp [hpath]
      rw [canonicalAt, hcanonical, Result.mapError_error, m.toError_of_path_ne_nil hne]

/-- The second of three variants is no object, in a schema whose name has to be escaped. -/
def slashedName : Object :=
  [("properties", .object [("a/b",
    .object [("anyOf", .array [.object [], .null, .object [("type", .string "null")]])])])]

theorem canonicalAt_cases_slashedName :
    (Node.object slashedName).Distinct ∧
    slashedName.canonicalAt "" = .error (.malformed "/properties/a~1b/anyOf/1" .schemaObject) ∧
      ∃ path v expected, slashedName.MisfitAt path v expected ∧
        (Node.object slashedName).at? (Pointer.ofTokens path) = some v ∧
        ∀ location, slashedName.canonicalAt location =
          .error (.malformed (location ++ Pointer.ofTokens path) expected) := by
  have ho : (Node.object slashedName).Distinct := by decide
  have h : slashedName.canonicalAt "" =
      .error (.malformed "/properties/a~1b/anyOf/1" .schemaObject) := by rfl
  refine ⟨ho, h, (canonicalAt_cases ho).resolve_left ?_⟩
  rintro ⟨o', hok⟩
  rw [hok ""] at h
  cases h

/-! ### Which misfits are fatal -/

/-- The other way down: where the whole has a canonical form, so has all that is looked at. -/
theorem Inspected.exists_canonical (hp : o.Inspected p) (ho : (Node.object o).Distinct)
    (h : ∃ o', o.canonical = .ok o') :
    (Node.object p).Distinct ∧ ∃ p', p.canonical = .ok p' := by
  induction hp with
  | refl => exact ⟨ho, h⟩
  | tail _ hstep ih =>
    obtain ⟨hq, q', hq'⟩ := ih
    obtain ⟨key, path, hp, hkey⟩ := hstep
    refine ⟨hp.distinct hq, hp.exists_canonical fun v hv => ?_⟩
    rcases canonical_cases hq with ⟨-, -, hentries⟩ | ⟨_, _, _, herr, -⟩
    · exact hentries key v hv hkey
    · rw [hq'] at herr
      cases herr

/-- A schema has a canonical form exactly if, in each schema that is looked at, the values of the
wrong shape are all in entries that an inlined variant replaces. -/
theorem exists_canonicalAt_iff (ho : (Node.object o).Distinct) {location : String} :
    (∃ o', o.canonicalAt location = .ok o') ↔
      ∀ p, o.Inspected p → ∀ key path v expected, p.Misshapen key path v expected →
        p.Replaced key := by
  simp only [canonicalAt_eq_ok_iff]
  constructor
  · intro h p hp key path v expected hv
    by_contra hkey
    obtain ⟨hd, p', hp'⟩ := hp.exists_canonical ho h
    obtain ⟨w, hw, hnot⟩ := hv.exists_not_canonical
    rcases canonical_cases hd with ⟨-, -, hentries⟩ | ⟨_, _, _, herr, -⟩
    · obtain ⟨n, hn⟩ := hentries key w hw hkey
      exact hnot n hn
    · rw [hp'] at herr
      cases herr
  · intro h
    cases hcanonical : o.canonical with
    | ok o' => exact ⟨o', rfl⟩
    | error m =>
      obtain ⟨base, p, key, rest, v, -, -, hp, hkey, hv⟩ := canonical_error_run ho hcanonical
      exact absurd (h p hp key rest v m.expected hv) hkey

/-- The only variant brings `items` of its own before anybody looks at the ones that stand there. -/
def coveredItems : Object :=
  [("items", .bool true), ("anyOf", .array [.object [("items", .object [])]])]

theorem exists_canonicalAt_iff_coveredItems :
    (Node.object coveredItems).Distinct ∧ (∃ o', coveredItems.canonicalAt "" = .ok o') ∧
      ∀ p, coveredItems.Inspected p → ∀ key path v expected, p.Misshapen key path v expected →
        p.Replaced key := by
  have ho : (Node.object coveredItems).Distinct := by decide
  have h : ∃ o', coveredItems.canonicalAt "" = .ok o' := ⟨_, rfl⟩
  exact ⟨ho, h, (exists_canonicalAt_iff ho).mp h⟩

/-- A value of the wrong shape need not be fatal. -/
theorem not_wellShaped_of_canonicalAt :
    ¬ ∀ (o o' p : Object) (location : String), (Node.object o).Distinct →
      o.canonicalAt location = .ok o' → o.Position p →
      ∀ key path v expected, ¬ p.Misshapen key path v expected := by
  intro h
  have ho : (Node.object coveredItems).Distinct := by decide
  have hok : coveredItems.canonicalAt "" = .ok [("items", .object [])] := rfl
  exact h coveredItems _ coveredItems "" ho hok .refl _ _ _ _ (.items rfl rfl)

end Object

end ConfigSchema
