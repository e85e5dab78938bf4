import ConfigSchema.Proofs.Canonical.Normal

/-!
# Going through inlined entries a second time

`o.pass form` brings the schema object `o` to its canonical form in two rounds, with `form` for the
schemas in it. The first round lets the unions give way one after the other, and forms their
variants. The second round forms what stands under the other keys at the end of the first, those
entries included that an inlined variant has brought in and that are canonical already. The
canonical form is a solution of that recursion, misfits included (`canonical_eq_pass`): it may go
through each entry once because a second time changes nothing.

Between two unions, the drafts of the object in the first round are the drafts in `Drafts.assemble`.
-/

namespace ConfigSchema

namespace Node

variable (form : Object → Except Misfit Object)

/-- A member of a map or a union, formed if it is a schema. -/
def formMember (role : Role) : Node → Except Misfit Node
  | object fs => (form fs).map object
  | n => role.unchanged n

/-- A map of schemas by name, its members formed. -/
def formMap (role : Role) (fs : Object) : Except Misfit Object :=
  Fields.gather (Fields.mapEntries
    (fun name v => (formMember form role v).mapError (Misfit.under name)) (Fields.sort fs))

/-- The variants of a union that are not null, formed. -/
def formVariants : Node → Except Misfit (List Node)
  | array xs =>
    (gatherItems (xs.mapIdx fun i x =>
      (formMember form (.schema .schemaObject) x).mapError (Misfit.under (toString i)))).map
        fun vs => vs.filter fun v => !v.isNullSchema
  | _ => .error ⟨[], .schemaArray⟩

/-- A value in its role, the schemas in it formed. The variants of a union are formed already. -/
def formIn (role : Role) : Node → Except Misfit Node
  | object fs =>
    match role with
    | .schema _ | .schemaOrData | .schemaOrFlag => (form fs).map object
    | .namedSchemas => (formMap form .schemaOrData fs).map object
    | .patternSchemas => (formMap form (.schema .schemaObject) fs).map object
    | .union | .data => .ok (object fs)
  | n => if role = .union then .ok n else role.unchanged n

end Node

namespace Object

variable (form : Object → Except Misfit Object)

/-- Without a default that is null. -/
def dropNullDefault (o : Object) : Object :=
  match Fields.get? o "default" with
  | some .null => Fields.erase o "default"
  | _ => o

/-- Forms a union; one that is left with a single variant is replaced by the variant's entries. -/
def giveWay (o : Object) (key : String) : Except Misfit Object :=
  match Fields.get? o key with
  | none => .ok o
  | some v => do
    match ← (Node.formVariants form v).mapError (Misfit.under key) with
    | [.object variant] => return Fields.insertAll (Fields.erase o key) variant
    | kept => return Fields.insert o key (.array kept)

/-- Both rounds over a schema object. -/
def pass (o : Object) : Except Misfit Object := do
  let stripped ← Drafts.unionKeys.foldlM (giveWay form) o.dropNullDefault
  let entries ← Fields.gather (Fields.mapEntries
    (fun k v => (Node.formIn form (Role.ofKey k) v).mapError (Misfit.under k)) stripped)
  return entries.sortBy KeyOrder.precedes

end Object

/-! ### The canonical form as `form` -/

namespace Node

theorem formMember_canonical {role : Role} (h : role.TakesSchema) (n : Node) :
    formMember Object.canonical role n = n.canonical role := by
  cases n with
  | object fs => exact (canonical_of_takesSchema h fs).symm
  | array xs => cases role with
    | union => exact h.elim
    | _ => rfl
  | _ => rfl

theorem formMap_canonical {role : Role} (h : role.TakesSchema) (fs : Object) :
    formMap Object.canonical role fs = Drafts.assembleMap (canonicalFields (fun _ => role) fs) := by
  rw [Drafts.assembleMap, canonicalFields_eq_mapEntries, Fields.sort_mapEntries, formMap]
  simp only [formMember_canonical h]

theorem mapIdx_formMember_canonical (index : Nat) (xs : List Node) :
    (xs.mapIdx fun i x => (formMember Object.canonical (.schema .schemaObject) x).mapError
      (Misfit.under (toString (index + i)))) = canonicalItems index xs := by
  induction xs generalizing index with
  | nil => rfl
  | cons x xs ih =>
    rw [List.mapIdx_cons, canonicalItems, ← ih (index + 1),
      @formMember_canonical (.schema .schemaObject) trivial]
    simp only [Nat.add_zero, Nat.add_assoc, Nat.add_comm 1]

theorem canonical_union (v : Node) :
    v.canonical .union = (formVariants Object.canonical v).map array := by
  cases v with
  | array xs =>
    have hitems := mapIdx_formMember_canonical 0 xs
    simp only [Nat.zero_add] at hitems
    rw [formVariants, hitems, canonical]
    cases gatherItems (canonicalItems 0 xs) <;> rfl
  | _ => rfl

theorem formIn_union (form : Object → Except Misfit Object) (n : Node) :
    formIn form .union n = .ok n := by
  cases n <;> rfl

theorem formIn_canonical {role : Role} (h : role ≠ .union) (n : Node) :
    formIn Object.canonical role n = n.canonical role := by
  cases n with
  | object fs =>
    cases role with
    | namedSchemas =>
      exact congrArg (Except.map object) (@formMap_canonical .schemaOrData trivial fs)
    | patternSchemas =>
      exact congrArg (Except.map object) (@formMap_canonical (.schema .schemaObject) trivial fs)
    | union => exact absurd rfl h
    | _ => rfl
  | array xs =>
    cases role with
    | union => exact absurd rfl h
    | _ => rfl
  | _ => exact if_neg h

end Node

/-! ### The first round -/

namespace Object

variable {o o' : Object} {key : String} {done : List String}

/-- The drafts of an object that the first round has arrived at. -/
def drafts (o : Object) : Drafts := Node.canonicalFields Role.ofKey o

theorem get?_drafts (o : Object) (k : String) : Fields.get? o.drafts k =
    (Fields.get? o k).map fun v => (v.canonical (Role.ofKey k)).mapError (Misfit.under k) :=
  Node.get?_canonicalFields k

theorem drafts_dropNullDefault : o.dropNullDefault.drafts = o.drafts.dropNullDefault := by
  have hdata (v : Node) :
      (v.canonical (Role.ofKey "default")).mapError (Misfit.under "default") = .ok v := by
    cases v <;> rfl
  have hnull : Fields.get? o.drafts "default" = some (.ok .null) ↔
      Fields.get? o "default" = some .null := by
    rw [get?_drafts]
    cases Fields.get? o "default" with
    | none => simp
    | some v => simp [hdata]
  by_cases h : Fields.get? o "default" = some .null
  · simp only [dropNullDefault, h, Drafts.dropNullDefault, hnull.mpr h]
    rw [drafts, drafts, Node.canonicalFields_eq_mapEntries, Node.canonicalFields_eq_mapEntries,
      Fields.mapEntries_erase]
  · have ho : o.dropNullDefault = o := by
      unfold dropNullDefault
      split
      · contradiction
      · rfl
    rw [ho, Drafts.dropNullDefault_of_ne (mt hnull.mp h)]

/-- The unions whose turn is over are canonical. -/
def Passed (done : List String) (o : Object) : Prop :=
  ∀ k ∈ done, ∀ v, Fields.get? o k = some v → v.canonical .union = .ok v

section

variable (hkey : key ∈ Drafts.unionKeys) {kept : List Node} (hd : o.drafts.Settling done)
  (hkept : Fields.get? o.drafts key = some (.ok (.array kept)))

include hkey hd hkept

theorem normal_kept : (Node.array kept).Normal .union := by
  have h := hd.normal.get? hkept
  rwa [Role.ofKey_of_mem_unionKeys hkey] at h

/-- With the entries of the only variant in place of the union. -/
theorem passed_insertAll (hp : o.Passed done) (hdone : ∀ k ∈ done, k ∈ Drafts.unionKeys)
    {variant : Object} (hone : kept = [.object variant]) :
    (drafts (Fields.insertAll (Fields.erase o key) variant) =
      Fields.insertAll (Fields.erase o.drafts key) (Fields.mapValues .ok variant)) ∧
    Passed (key :: done) (Fields.insertAll (Fields.erase o key) variant) := by
  subst hone
  have hs := hd.variant hkey hkept
  have hn := (Node.normal_union_iff.mp (normal_kept hkey hd hkept) _ (List.mem_cons_self ..)).1
  have hfixed (k : String) (v : Node) (hv : (k, v) ∈ variant) :
      v.canonical (Role.ofKey k) = .ok v :=
    ((Node.normal_schema_iff.mp hn).2 k v hv).canonical_eq
  constructor
  · rw [← Node.canonicalFields_of_fixed hfixed]
    simp only [drafts, Node.canonicalFields_eq_mapEntries, Fields.mapEntries_insertAll,
      Fields.mapEntries_erase]
  · intro k hk v hv
    have hku : k ∈ Drafts.unionKeys := by
      rcases List.mem_cons.mp hk with rfl | hk
      · exact hkey
      · exact hdone k hk
    rw [Fields.get?_insertAll hs.distinct, Fields.get?_erase] at hv
    rcases Option.or_eq_some_iff.mp hv with hv | ⟨-, hv⟩
    · have := hfixed k v (Fields.mem_of_get? hv)
      rwa [Role.ofKey_of_mem_unionKeys hku] at this
    · split at hv
      · cases hv
      · next hne =>
        rcases List.mem_cons.mp hk with rfl | hk
        · exact absurd rfl hne
        · exact hp k hk v hv

/-- With the formed variants in place of the variants. -/
theorem passed_insert (hp : o.Passed done) :
    drafts (Fields.insert o key (.array kept)) = o.drafts ∧
    Passed (key :: done) (Fields.insert o key (.array kept)) := by
  have hfixed := (normal_kept hkey hd hkept).canonical_eq
  constructor
  · refine Eq.trans ?_ (Fields.insert_of_get? hkept)
    simp only [drafts, Node.canonicalFields_eq_mapEntries, Fields.mapEntries_insert,
      Role.ofKey_of_mem_unionKeys hkey, hfixed]
    rfl
  · intro k hk v hv
    rw [Fields.get?_insert] at hv
    split at hv
    · cases hv; exact hfixed
    · next hne =>
      rcases List.mem_cons.mp hk with rfl | hk
      · exact absurd rfl hne
      · exact hp k hk v hv

end

/-- A union whose variants have been formed has the same effect on the object as on its drafts. -/
theorem giveWay_of_kept (hdone : ∀ k ∈ done, k ∈ Drafts.unionKeys) (hkey : key ∈ Drafts.unionKeys)
    (hd : o.drafts.Settling done) (hp : o.Passed done) {v : Node} {kept : List Node}
    (hv : Fields.get? o key = some v) (hf : Node.formVariants Object.canonical v = .ok kept)
    (hkept : Fields.get? o.drafts key = some (.ok (.array kept))) :
    ∃ o', giveWay Object.canonical o key = .ok o' ∧
      o.drafts.inlineUnion key = .ok o'.drafts ∧ o'.Passed (key :: done) := by
  by_cases hone : ∃ variant, kept = [.object variant]
  · obtain ⟨variant, hone⟩ := hone
    obtain ⟨hdrafts, hpassed⟩ := passed_insertAll hkey hd hkept hp hdone hone
    subst hone
    refine ⟨_, ?_, ?_, hpassed⟩
    · simp [giveWay, hv, hf, Result.mapError_ok, bind, Except.bind, pure, Except.pure]
    · rw [hdrafts]
      exact Drafts.inlineUnion_of_single hkept
  · obtain ⟨hdrafts, hpassed⟩ := passed_insert hkey hd hkept hp
    refine ⟨_, ?_, ?_, hpassed⟩
    · simp only [giveWay, hv, hf, Result.mapError_ok, bind, Except.bind]
      split
      · next variant => exact absurd ⟨variant, rfl⟩ hone
      · rfl
    · rw [hdrafts]
      refine Drafts.inlineUnion_of_not_single (fun variant h => hone ⟨variant, ?_⟩) ?_
      · rw [hkept] at h
        cases h
        rfl
      · simp [hkept]

/-- A union has the same effect on the object as on its drafts. -/
theorem giveWay_canonical (hdone : ∀ k ∈ done, k ∈ Drafts.unionKeys)
    (hkey : key ∈ Drafts.unionKeys) (hd : o.drafts.Settling done) (hp : o.Passed done) :
    (∃ o', giveWay Object.canonical o key = .ok o' ∧ o.drafts.inlineUnion key = .ok o'.drafts ∧
      o'.Passed (key :: done)) ∨
    ∃ m, giveWay Object.canonical o key = .error m ∧ o.drafts.inlineUnion key = .error m := by
  have hdraft := get?_drafts o key
  rw [Role.ofKey_of_mem_unionKeys hkey] at hdraft
  cases hv : Fields.get? o key with
  | none =>
    rw [hv] at hdraft
    refine .inl ⟨o, by simp [giveWay, hv], ?_, ?_⟩
    · exact Drafts.inlineUnion_of_not_single (by simp [hdraft]) (by simp [hdraft])
    · intro k hk w hw
      rcases List.mem_cons.mp hk with rfl | hk
      · rw [hv] at hw
        cases hw
      · exact hp k hk w hw
  | some v =>
    rw [hv, Option.map_some, Node.canonical_union] at hdraft
    cases hf : Node.formVariants Object.canonical v with
    | error m =>
      rw [hf] at hdraft
      refine .inr ⟨m.under key, ?_, ?_⟩
      · simp [giveWay, hv, hf, Result.mapError_error, bind, Except.bind]
      · simp [Drafts.inlineUnion, hdraft, Except.map, Result.mapError_error]
    | ok kept =>
      rw [hf] at hdraft
      exact .inl (giveWay_of_kept hdone hkey hd hp hv hf hdraft)

/-- The first round arrives at an object whose drafts the assembly arrives at, or at the same
misfit. -/
theorem giveWays_canonical {keys : List String} (hdone : ∀ k ∈ done, k ∈ Drafts.unionKeys)
    (hkeys : ∀ k ∈ keys, k ∈ Drafts.unionKeys) (hd : o.drafts.Settling done)
    (hp : o.Passed done) :
    (∃ o', keys.foldlM (giveWay Object.canonical) o = .ok o' ∧
      keys.foldlM Drafts.inlineUnion o.drafts = .ok o'.drafts ∧ o'.Passed (keys.reverse ++ done)) ∨
    ∃ m, keys.foldlM (giveWay Object.canonical) o = .error m ∧
      keys.foldlM Drafts.inlineUnion o.drafts = .error m := by
  induction keys generalizing o done with
  | nil => exact .inl ⟨o, rfl, rfl, hp⟩
  | cons key keys ih =>
    have hkey := hkeys key (List.mem_cons_self ..)
    rw [List.foldlM_cons, List.foldlM_cons, List.reverse_cons, List.append_assoc]
    rcases giveWay_canonical hdone hkey hd hp with ⟨o₁, ho, hd₁, hp₁⟩ | ⟨m, ho, hm⟩
    · rw [ho, hd₁]
      exact ih (List.forall_mem_cons.mpr ⟨hkey, hdone⟩)
        (fun k hk => hkeys k (List.mem_cons_of_mem _ hk)) (hd.inlineUnion hdone hkey hd₁) hp₁
    · rw [ho, hm]
      exact .inr ⟨m, rfl, rfl⟩

/-- The canonical form is what both rounds arrive at when it is used for the schemas inside. -/
theorem canonical_eq_pass (ho : (Node.object o).Distinct) :
    o.canonical = o.pass Object.canonical := by
  have hd : o.dropNullDefault.drafts.Settling [] := by
    rw [drafts_dropNullDefault]
    exact Node.settling_canonicalFields ho
  have hround := giveWays_canonical (by simp) (fun _ hk => hk) hd (fun k hk => by cases hk)
  rw [drafts_dropNullDefault] at hround
  show Drafts.assemble o.drafts = _
  rw [Drafts.assemble, pass]
  rcases hround with ⟨o', ho', hd', hp⟩ | ⟨m, ho', hm⟩
  · have hdis : Fields.Distinct o' := by
      have := Drafts.distinct_inlineUnions hd' (drafts_dropNullDefault ▸ hd.distinct)
      rwa [drafts, Fields.Distinct, Node.keys_canonicalFields] at this
    rw [ho', hd']
    have hentries : o'.drafts = Fields.mapEntries (fun k v =>
        (Node.formIn Object.canonical (Role.ofKey k) v).mapError (Misfit.under k)) o' := by
      rw [drafts, Node.canonicalFields_eq_mapEntries]
      refine Fields.mapEntries_congr fun k v hv => ?_
      by_cases hrole : Role.ofKey k = .union
      · have hk := hp k (by simpa using Role.mem_unionKeys_of_ofKey hrole) v
          (Fields.get?_of_mem hdis hv)
        rw [hrole, Node.formIn_union, hk]
      · rw [Node.formIn_canonical hrole]
    show (Fields.gather o'.drafts >>= _) = _
    rw [hentries]
    rfl
  · rw [ho', hm]
    rfl

end Object

end ConfigSchema
