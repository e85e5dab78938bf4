import ConfigSchema.Proofs.Canonical.Growth
import ConfigSchema.Proofs.Canonical.SecondPass
import Mathlib.Logic.Function.Iterate

/-!
# The passes come to an end

`Object.pass` forms schemas that are no parts of the object as it was written: what an inlined
variant has brought in comes from earlier calls, and the second round forms it again. As the
canonical form of anything is within the bounds of what it is made of, all these schemas still are
less deep than the object (`giveWay_within`), so a pass calls its argument `form` on less deep
schemas only (`pass_eq_canonical`). Passes that are nested as often as the object is deep never come
to what is plugged in at the bottom (`iterate_pass`): the recursion ends, and with the canonical
form.
-/

namespace ConfigSchema

/-- `form` gives the canonical form of schemas within the bound. -/
def CanonicalWithin (bound : Nat) (form : Object → Except Misfit Object) : Prop :=
  ∀ o : Object, (Node.object o).Within bound → form o = o.canonical

variable {form : Object → Except Misfit Object} {bound : Nat}

/-! ### Values in their role -/

namespace Node

theorem formMember_congr (hform : CanonicalWithin bound form) {v : Node} (hv : v.Within bound)
    (role : Role) : formMember form role v = formMember Object.canonical role v := by
  cases v with
  | object p => rw [formMember, formMember, hform p hv]
  | _ => rfl

theorem formMap_congr (hform : CanonicalWithin bound form) {map : Object}
    (hmap : (object map).Within bound) (role : Role) :
    formMap form role map = formMap Object.canonical role map := by
  rw [formMap, formMap]
  refine congrArg Fields.gather (Fields.mapEntries_congr fun name v hv => ?_)
  have hv := (hmap.entry (Fields.mem_sortBy.mp hv)).mono (Nat.sub_le ..)
  rw [formMember_congr hform hv]

theorem formVariants_congr (hform : CanonicalWithin bound form) {v : Node} (hv : v.Within bound) :
    formVariants form v = formVariants Object.canonical v := by
  cases v with
  | array xs =>
    have hitems : (xs.mapIdx fun i x =>
          (formMember form (.schema .schemaObject) x).mapError (Misfit.under (toString i))) =
        xs.mapIdx fun i x => (formMember Object.canonical (.schema .schemaObject) x).mapError
          (Misfit.under (toString i)) := by
      refine List.ext_getElem (by simp) fun i hi _ => ?_
      have hx := (hv.item (List.getElem_mem (by simpa using hi))).mono (Nat.sub_le ..)
      rw [List.getElem_mapIdx, List.getElem_mapIdx, formMember_congr hform hx]
    rw [formVariants, formVariants, hitems]
  | _ => rfl

theorem formIn_congr (hform : CanonicalWithin bound form) {v : Node} (hv : v.Within bound)
    (role : Role) : formIn form role v = formIn Object.canonical role v := by
  cases v with
  | object fs =>
    cases role with
    | schema | schemaOrData | schemaOrFlag => exact congrArg (Except.map object) (hform fs hv)
    | namedSchemas | patternSchemas => exact congrArg (Except.map object) (formMap_congr hform hv _)
    | union | data => rfl
  | _ => rfl

end Node

/-! ### Both rounds -/

namespace Object

variable {o o' : Object} {key : String}

theorem dropNullDefault_within (ho : (Node.object o).Within bound) :
    (Node.object o.dropNullDefault).Within bound := by
  unfold dropNullDefault
  split
  · exact ho.erase _
  · exact ho

theorem giveWay_cases (h : giveWay form o key = .ok o') : o' = o ∨
    ∃ v kept, Fields.get? o key = some v ∧ Node.formVariants form v = .ok kept ∧
      ((∃ variant, kept = [.object variant] ∧
        o' = Fields.insertAll (Fields.erase o key) variant) ∨
      o' = Fields.insert o key (.array kept)) := by
  unfold giveWay at h
  split at h
  · cases h
    exact .inl rfl
  · next v hv =>
    obtain ⟨kept, hkept, h⟩ := Result.bind_eq_ok_iff.mp h
    refine .inr ⟨v, kept, hv, Result.mapError_eq_ok_iff.mp hkept, ?_⟩
    split at h
    · next variant =>
      cases h
      exact .inl ⟨variant, rfl, rfl⟩
    · cases h
      exact .inr rfl

/-- Whether a union gives way or stays, what is there afterwards is within the bound. -/
theorem giveWay_within (h : giveWay Object.canonical o key = .ok o')
    (ho : (Node.object o).Within bound) : (Node.object o').Within bound := by
  rcases giveWay_cases h with rfl | ⟨v, kept, hv, hf, h⟩
  · exact ho
  · have hunion : v.canonical .union = .ok (.array kept) := by
      rw [Node.canonical_union, hf]
      rfl
    have hkept := (ho.entry (Fields.mem_of_get? hv)).canonical hunion
    rcases h with ⟨variant, rfl, rfl⟩ | rfl
    · refine (ho.erase key).insertAll fun k w hw => ?_
      exact ((hkept.item (List.mem_cons_self ..)).entry hw).mono (by omega)
    · exact ho.insert key hkept

theorem giveWay_congr (hform : CanonicalWithin (bound - 1) form)
    (ho : (Node.object o).Within bound) :
    giveWay form o key = giveWay Object.canonical o key := by
  unfold giveWay
  cases hv : Fields.get? o key with
  | none => rfl
  | some v =>
    have hvariants := Node.formVariants_congr hform (ho.entry (Fields.mem_of_get? hv))
    simp only [hvariants]

theorem giveWays_congr (hform : CanonicalWithin (bound - 1) form) {keys : List String}
    (ho : (Node.object o).Within bound) :
    keys.foldlM (giveWay form) o = keys.foldlM (giveWay Object.canonical) o := by
  induction keys generalizing o with
  | nil => rfl
  | cons key keys ih =>
    rw [List.foldlM_cons, List.foldlM_cons, giveWay_congr hform ho]
    cases h : giveWay Object.canonical o key with
    | error => rfl
    | ok o₁ => exact ih (giveWay_within h ho)

theorem giveWays_within {keys : List String}
    (h : keys.foldlM (giveWay Object.canonical) o = .ok o') (ho : (Node.object o).Within bound) :
    (Node.object o').Within bound :=
  Result.foldlM_induct (P := fun o => (Node.object o).Within bound)
    (fun _ _ _ _ => giveWay_within) h ho

/-- A pass calls `form` on schemas that are less deep than the object. -/
theorem pass_eq_canonical (hform : CanonicalWithin (bound - 1) form)
    (ho : (Node.object o).Within bound) : o.pass form = o.canonical := by
  have hdropped := dropNullDefault_within ho
  rw [canonical_eq_pass ho.distinct, pass, pass, giveWays_congr hform hdropped]
  cases h : Drafts.unionKeys.foldlM (giveWay Object.canonical) o.dropNullDefault with
  | error => rfl
  | ok stripped =>
    have hstripped := giveWays_within h hdropped
    have hentries := @Fields.mapEntries_congr _ _
      (fun k v => (Node.formIn form (Role.ofKey k) v).mapError (Misfit.under k))
      (fun k v => (Node.formIn Object.canonical (Role.ofKey k) v).mapError (Misfit.under k))
      stripped fun k v hv => by rw [Node.formIn_congr hform (hstripped.entry hv)]
    simp only [Result.ok_bind, hentries]

/-- Nested passes arrive at the canonical form, whatever is used in the innermost one. -/
theorem iterate_pass (form : Object → Except Misfit Object) (n : Nat) :
    CanonicalWithin n (Object.pass^[n] form) := by
  induction n with
  | zero =>
    intro o ho
    exact absurd (Node.within_object_iff.mp ho).1 (Nat.lt_irrefl 0)
  | succ n ih =>
    intro o ho
    rw [Function.iterate_succ_apply']
    exact @pass_eq_canonical _ (n + 1) o ih ho

/-- The recursion that both rounds describe has no other solution than the canonical form. -/
theorem eq_canonical_of_pass (h : Object.pass form = form) (ho : (Node.object o).Distinct) :
    form o = o.canonical := by
  have hiterate := iterate_pass form (Node.object o).depth o ⟨ho, Nat.le_refl _⟩
  rwa [Function.iterate_fixed h] at hiterate

/-- Bringing a schema object to its canonical form ends: passes nested as often as the object is
deep arrive there or at the same misfit, whatever a pass below them would give, so none takes place.
The canonical form has no more values than the object, and they are nested no deeper. -/
theorem canonicalAt_terminates (ho : (Node.object o).Distinct) (location : String) :
    (∀ (form : Object → Except Misfit Object) (n : Nat), (Node.object o).depth ≤ n →
      ((Object.pass^[n] form) o).mapError (Misfit.toError location) = o.canonicalAt location) ∧
    ∀ o', o.canonicalAt location = .ok o' →
      (Node.object o').size ≤ (Node.object o).size ∧
        (Node.object o').depth ≤ (Node.object o).depth := by
  constructor
  · intro form n hn
    rw [iterate_pass form n o ⟨ho, hn⟩, canonicalAt]
  · intro o' h
    have h := Node.canonical_root (canonicalAt_eq_ok_iff.mp h)
    have hwithin : (Node.object o).Within (Node.object o).depth := ⟨ho, Nat.le_refl _⟩
    exact ⟨Node.size_canonical_le h, (hwithin.canonical h).depth⟩

theorem canonicalAt_terminates_nestedUnions :
    (Node.object nestedUnions).Distinct ∧ (Node.object nestedUnions).depth = 5 ∧
      ((Object.pass^[5] fun _ => .error ⟨[], .schemaObject⟩) nestedUnions).mapError
        (Misfit.toError "") = .ok flatUnions ∧
      (Node.object flatUnions).size ≤ (Node.object nestedUnions).size ∧
      (Node.object flatUnions).depth ≤ (Node.object nestedUnions).depth := by
  have ho : (Node.object nestedUnions).Distinct := by decide
  have hdepth : (Node.object nestedUnions).depth = 5 := by decide
  have h : nestedUnions.canonicalAt "" = .ok flatUnions := rfl
  obtain ⟨hpass, hextent⟩ := canonicalAt_terminates ho ""
  exact ⟨ho, hdepth, (hpass _ 5 hdepth.le).trans h, hextent flatUnions h⟩

end Object

end ConfigSchema
