import ConfigSchema.Json.Readable
import ConfigSchema.Proofs.Canonical.Normal
import ConfigSchema.Proofs.Json.Size

/-!
# The canonical form does not grow

An inlined variant moves outwards, and a union pays for the entries that its variant brings in: the
list and the variant itself are gone. So the canonical form has no more values than there were
(`size_canonical_le`), and none of them stands deeper (`Within.canonical`).
-/

namespace ConfigSchema

namespace Drafts

variable {d d' : Drafts} {key : String} {o : Object} {bound : Nat}

/-- A misfit has no size. -/
def draftSize : Except Misfit Node → Nat
  | .ok v => v.size
  | .error _ => 0

def size (d : Drafts) : Nat := Fields.total draftSize d

theorem size_mapValues_ok (o : Object) :
    size (Fields.mapValues .ok o) = Fields.total Node.size o :=
  Fields.total_mapValues ..

theorem size_dropNullDefault_le (d : Drafts) : d.dropNullDefault.size ≤ d.size := by
  unfold dropNullDefault
  split
  · exact Fields.total_erase_le ..
  · exact Nat.le_refl _

theorem size_inlineUnion_le (h : d.inlineUnion key = .ok d') : d'.size ≤ d.size := by
  rcases inlineUnion_cases h with ⟨variant, hone, rfl⟩ | ⟨-, -, rfl⟩
  · have hunion : (Node.array [.object variant]).size = Fields.total Node.size variant + 2 := by
      simp [Node.size_array, Node.size_object]
    calc size (Fields.insertAll (d.erase key) (Fields.mapValues .ok variant))
      _ ≤ size (d.erase key) + Fields.total Node.size variant := by
        rw [← size_mapValues_ok]
        exact Fields.total_insertAll_le ..
      _ ≤ size (d.erase key) + (Node.array [.object variant]).size := by omega
      _ ≤ d.size := Fields.total_erase_add_le hone
  · exact Nat.le_refl _

theorem size_assemble_le (h : d.assemble = .ok o) : Fields.total Node.size o ≤ d.size := by
  obtain ⟨entries, hm, rfl⟩ := assemble_eq_ok_iff.mp h
  have hle : size (Fields.mapValues .ok entries) ≤ d.dropNullDefault.size := by
    refine Result.foldlM_induct (P := fun d' => d'.size ≤ d.dropNullDefault.size) ?_ hm
      (Nat.le_refl _)
    exact fun key _ d₁ d₂ h hle => Nat.le_trans (size_inlineUnion_le h) hle
  rw [Fields.total_sortBy, ← size_mapValues_ok]
  exact Nat.le_trans hle (size_dropNullDefault_le d)

theorem size_assembleMap (h : d.assembleMap = .ok o) : Fields.total Node.size o = d.size := by
  obtain ⟨entries, rfl, rfl⟩ := assembleMap_eq_ok_iff.mp h
  rw [size_mapValues_ok]
  exact Fields.total_sortBy ..

/-- What a variant brings in stands further out than it did in the union. -/
theorem descends_within : Descends fun _ v => v.Within bound := by
  intro key _ variant h k v hv
  have hvariant : (Node.object variant).Within (bound - 1) := h.item (List.mem_cons_self ..)
  exact (hvariant.entry hv).mono (by omega)

end Drafts

namespace Node

variable {n m : Node} {role : Role} {bound : Nat}

theorem size_canonicalFields_le {roles : String → Role} {fs : Object}
    (h : ∀ k v m, (k, v) ∈ fs → v.canonical (roles k) = .ok m → m.size ≤ v.size) :
    Drafts.size (canonicalFields roles fs) ≤ Fields.total size fs := by
  rw [canonicalFields_eq_mapEntries]
  refine Fields.total_mapEntries_le fun k v hv => ?_
  cases hm : v.canonical (roles k) with
  | ok m => exact h k v m hv hm
  | error => exact Nat.zero_le _

theorem sum_size_le {xs vs : List Node}
    (hvs : List.Forall₂ (fun x v => x.canonical (.schema .schemaObject) = .ok v) xs vs)
    (h : ∀ x ∈ xs, ∀ v, x.canonical (.schema .schemaObject) = .ok v → v.size ≤ x.size) :
    (vs.map size).sum ≤ (xs.map size).sum := by
  induction hvs with
  | nil => exact Nat.le_refl _
  | cons hx _ ih =>
    obtain ⟨hfirst, hrest⟩ := List.forall_mem_cons.mp h
    rw [List.map_cons, List.sum_cons, List.map_cons, List.sum_cons]
    exact Nat.add_le_add (hfirst _ hx) (ih hrest)

theorem size_canonical_le (h : n.canonical role = .ok m) : m.size ≤ n.size := by
  induction n using Node.induct generalizing role m with
  | scalar n ho ha =>
    cases n with
    | object => cases ho
    | array => cases ha
    | _ =>
      obtain rfl := eq_of_unchanged h
      exact Nat.le_refl _
  | array xs ih =>
    by_cases hrole : role = .union
    · subst hrole
      obtain ⟨vs, hvs, rfl⟩ := canonical_union_eq_ok_iff.mp h
      have hfilter : ((vs.filter fun v => !v.isNullSchema).map size).sum ≤ (vs.map size).sum :=
        (List.filter_sublist.map _).sum_le_sum fun _ _ => Nat.zero_le _
      have hitems := sum_size_le hvs fun x hx v hxv => ih x hx hxv
      rw [size_array, size_array]
      exact Nat.succ_le_succ (Nat.le_trans hfilter hitems)
    · rcases canonical_array_cases h with ⟨hunion, -⟩ | ⟨-, rfl⟩
      · exact absurd hunion hrole
      · exact Nat.le_refl _
  | object fs ih =>
    have hfields (roles : String → Role) :=
      @size_canonicalFields_le roles fs fun k v m hv hvm => ih k v hv hvm
    rcases canonical_object_cases h with ⟨-, o, ho, rfl⟩ | ⟨member, -, o, ho, rfl⟩ | ⟨-, rfl⟩
    · rw [size_object, size_object]
      exact Nat.succ_le_succ (Nat.le_trans (Drafts.size_assemble_le ho) (hfields _))
    · rw [size_object, size_object, Drafts.size_assembleMap ho]
      exact Nat.succ_le_succ (hfields _)
    · exact Nat.le_refl _

theorem Within.canonical (hn : n.Within bound) (h : n.canonical role = .ok m) :
    m.Within bound := by
  induction n using Node.induct generalizing role m bound with
  | scalar n ho ha =>
    cases n with
    | object => cases ho
    | array => cases ha
    | _ =>
      obtain rfl := eq_of_unchanged h
      exact hn
  | array xs ih =>
    obtain ⟨hroom, hxs⟩ := within_array_iff.mp hn
    rcases canonical_array_cases h with ⟨-, vs, rfl, hvs⟩ | ⟨-, rfl⟩
    · refine within_array_iff.mpr ⟨hroom, fun v hv => ?_⟩
      obtain ⟨-, x, hx, hxv⟩ := hvs v hv
      exact ih x hx (hxs x hx) hxv
    · exact hn
  | object fs ih =>
    obtain ⟨hroom, hkeys, hfs⟩ := within_object_iff.mp hn
    have hnormal := normal_of_canonical hn.distinct h
    have drafts (roles : String → Role) :
        Drafts.Holds (fun _ v => v.Within (bound - 1)) (canonicalFields roles fs) :=
      holds_canonicalFields fun k v m hv hvm => ih k v hv (hfs k v hv) hvm
    rcases canonical_object_cases h with ⟨hrole, o, ho, rfl⟩ | ⟨member, hrole, o, ho, rfl⟩ |
      ⟨-, rfl⟩
    · have hsettled := ((normal_iff_of_takesSchema hrole).mp hnormal).1
      refine within_object_iff.mpr ⟨hroom, hsettled.distinct, fun k v hv => ?_⟩
      exact Drafts.Holds.assemble Drafts.descends_within (drafts _) ho hv
    · have hsorted := ((normal_iff_of_member hrole).mp hnormal).1
      refine within_object_iff.mpr ⟨hroom, hsorted.distinct, fun k v hv => ?_⟩
      exact (drafts _).assembleMap ho hv
    · exact hn

end Node

end ConfigSchema
