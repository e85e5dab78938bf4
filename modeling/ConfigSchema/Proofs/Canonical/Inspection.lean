import ConfigSchema.Proofs.Canonical.Inlined

/-!
# Which entries are looked at

An entry has its turn when the union that it is gives way, or, when it is no union, after all
unions. An inlined variant that has its key before that turn replaces it, and nobody looks at what
stood there (`Replaced`). All other entries are looked at: the canonical form exists if each of them
has one in its role, and otherwise it fails with the misfit of one of them
(`Object.canonical_cases`).
-/

namespace ConfigSchema

namespace Drafts

variable {d : Drafts} {key k : String} {keys done : List String}

/-- A variant that is inlined before the turn of the entry `key` has an entry of that key. -/
def Replaced (d : Drafts) (keys : List String) (key : String) : Prop :=
  ∃ variant ∈ d.inlinedVariants (keys.takeWhile (· ≠ key)), key ∈ Fields.keys variant

theorem not_replaced_nil : ¬ d.Replaced [] k := by
  rintro ⟨variant, hvariant, -⟩
  cases hvariant

theorem not_replaced_self : ¬ d.Replaced (key :: keys) key := by
  rintro ⟨variant, hvariant, -⟩
  rw [List.takeWhile_cons_of_neg (by simp)] at hvariant
  cases hvariant

theorem replaced_of_single (hne : key ≠ k) {variant : Object}
    (h : d.get? key = some (.ok (.array [.object variant]))) : d.Replaced (key :: keys) k ↔
      k ∈ Fields.keys variant ∨
        Replaced (Fields.insertAll (d.erase key) (Fields.mapValues .ok variant)) keys k := by
  unfold Replaced
  rw [List.takeWhile_cons_of_pos (by simpa using hne), inlinedVariants, collapses_cons_of_single h,
    List.map_cons, List.exists_mem_cons_iff]
  rfl

theorem replaced_of_not_single (hne : key ≠ k)
    (h : ∀ variant, d.get? key ≠ some (.ok (.array [.object variant]))) :
    d.Replaced (key :: keys) k ↔ d.Replaced keys k := by
  unfold Replaced
  rw [List.takeWhile_cons_of_pos (by simpa using hne), inlinedVariants,
    collapses_cons_of_not_single h, inlinedVariants]

/-- No entry that is looked at is a misfit. -/
def Clean (d : Drafts) (keys : List String) : Prop :=
  ∀ k, ¬ d.Replaced keys k → ∀ m, d.get? k ≠ some (.error m)

theorem Clean.of_single {variant : Object} (hv : Fields.Distinct variant)
    (h : d.get? key = some (.ok (.array [.object variant])))
    (hclean : Clean (Fields.insertAll (d.erase key) (Fields.mapValues .ok variant)) keys) :
    d.Clean (key :: keys) := by
  intro k hk m hm
  by_cases hne : key = k
  · rw [← hne, h] at hm
    cases hm
  · obtain ⟨hnot, hk⟩ := not_or.mp (mt (replaced_of_single hne h).mpr hk)
    refine hclean k hk m ?_
    rw [get?_inlined hv, Fields.get?_eq_none_iff.mpr hnot, if_neg hne]
    exact hm

/-- A misfit that is looked at later was there before the variant came in. -/
theorem error_of_single {variant : Object} {m : Misfit} (hv : Fields.Distinct variant)
    (h : d.get? key = some (.ok (.array [.object variant])))
    (hk : ¬ Replaced (Fields.insertAll (d.erase key) (Fields.mapValues .ok variant)) keys k)
    (hm : Fields.get? (Fields.insertAll (d.erase key) (Fields.mapValues .ok variant)) k =
      some (.error m)) :
    ¬ d.Replaced (key :: keys) k ∧ d.get? k = some (.error m) := by
  rcases inlined_cases hv hm with ⟨w, -, hw⟩ | ⟨hne, hm'⟩
  · cases hw
  refine ⟨fun hreplaced => ?_, hm'⟩
  rcases (replaced_of_single hne h).mp hreplaced with hmem | hreplaced
  · obtain ⟨w, hw⟩ := Option.isSome_iff_exists.mp ((Fields.get?_isSome_iff variant k).mpr hmem)
    rw [get?_inlined hv, hw] at hm
    cases hm
  · exact hk hreplaced

theorem Clean.of_not_single (h : ∀ variant, d.get? key ≠ some (.ok (.array [.object variant])))
    (herr : ∀ m, d.get? key ≠ some (.error m)) (hclean : d.Clean keys) :
    d.Clean (key :: keys) := by
  intro k hk m hm
  by_cases hne : key = k
  · exact herr m (hne ▸ hm)
  · exact hclean k (mt (replaced_of_not_single hne h).mpr hk) m hm

theorem get?_dropNullDefault_error_iff {m : Misfit} :
    d.dropNullDefault.get? k = some (.error m) ↔ d.get? k = some (.error m) := by
  unfold dropNullDefault
  split
  · next hnull =>
    rw [Fields.get?_erase]
    split
    · next hk =>
      rw [← hk, hnull]
      simp
    · exact Iff.rfl
  · exact Iff.rfl

theorem gather_cases (hd : d.Distinct) :
    (∃ entries, Fields.gather d = .ok entries ∧ d.Clean []) ∨
      ∃ k m, Fields.gather d = .error m ∧ d.get? k = some (.error m) := by
  cases hgather : Fields.gather d with
  | ok entries =>
    refine .inl ⟨entries, rfl, fun k _ m hm => ?_⟩
    rw [Fields.gather_eq_ok_iff.mp hgather, Fields.get?_mapValues] at hm
    obtain ⟨v, -, hv⟩ := Option.map_eq_some_iff.mp hm
    cases hv
  | error m =>
    obtain ⟨k, hk⟩ := Fields.mem_of_gather_eq_error hgather
    exact .inr ⟨k, m, rfl, Fields.get?_of_mem hd hk⟩

/-- The unions of `keys` have their turn, and then all entries: either everything that is looked at
on the way is in order, or a misfit among it ends the run. -/
theorem inlineUnions_gather_cases (hdone : ∀ k ∈ done, k ∈ unionKeys)
    (hkeys : ∀ k ∈ keys, k ∈ unionKeys) (hd : d.Settling done) :
    (∃ entries, (keys.foldlM inlineUnion d >>= Fields.gather) = .ok entries ∧ d.Clean keys) ∨
      ∃ k m, (keys.foldlM inlineUnion d >>= Fields.gather) = .error m ∧ ¬ d.Replaced keys k ∧
        d.get? k = some (.error m) := by
  induction keys generalizing d done with
  | nil =>
    rcases gather_cases hd.distinct with ⟨entries, hok, hclean⟩ | ⟨k, m, herr, hk⟩
    · exact .inl ⟨entries, hok, hclean⟩
    · exact .inr ⟨k, m, herr, not_replaced_nil, hk⟩
  | cons key keys ih =>
    have hkey := hkeys key (List.mem_cons_self ..)
    have hkeys' : ∀ k ∈ keys, k ∈ unionKeys := fun k hk => hkeys k (List.mem_cons_of_mem _ hk)
    have hdone' := List.forall_mem_cons.mpr ⟨hkey, hdone⟩
    rw [List.foldlM_cons, bind_assoc]
    by_cases herr : ∃ m, d.get? key = some (.error m)
    · -- the union itself is a misfit
      obtain ⟨m, hm⟩ := herr
      refine .inr ⟨key, m, ?_, not_replaced_self, hm⟩
      simp [inlineUnion, hm, bind, Except.bind]
    have herr' : ∀ m, d.get? key ≠ some (.error m) := fun m hm => herr ⟨m, hm⟩
    by_cases hone : ∃ variant, d.get? key = some (.ok (.array [.object variant]))
    · obtain ⟨variant, hone⟩ := hone
      have hstep := inlineUnion_of_single hone
      have hv := (hd.variant hkey hone).distinct
      rw [hstep]
      rcases ih hdone' hkeys' (hd.inlineUnion hdone hkey hstep) with ⟨entries, hok, hclean⟩ |
        ⟨k, m, hfail, hk, hm⟩
      · exact .inl ⟨entries, hok, .of_single hv hone hclean⟩
      · exact .inr ⟨k, m, hfail, error_of_single hv hone hk hm⟩
    · have hone' : ∀ variant, d.get? key ≠ some (.ok (.array [.object variant])) :=
        fun variant hv => hone ⟨variant, hv⟩
      have hstep := inlineUnion_of_not_single hone' herr'
      rw [hstep]
      rcases ih hdone' hkeys' (hd.inlineUnion hdone hkey hstep) with ⟨entries, hok, hclean⟩ |
        ⟨k, m, hfail, hk, hm⟩
      · exact .inl ⟨entries, hok, .of_not_single hone' herr' hclean⟩
      · have hne : key ≠ k := fun hne => herr' m (hne ▸ hm)
        exact .inr ⟨k, m, hfail, mt (replaced_of_not_single hne hone').mp hk, hm⟩

theorem assemble_eq_map (d : Drafts) : d.assemble =
    (unionKeys.foldlM inlineUnion d.dropNullDefault >>= Fields.gather).map
      (Fields.sortBy KeyOrder.precedes) := by
  rw [assemble]
  cases unionKeys.foldlM inlineUnion d.dropNullDefault with
  | error m => rfl
  | ok merged =>
    show (Fields.gather merged >>= _) = (Fields.gather merged).map _
    cases Fields.gather merged <;> rfl

/-- Drafts are put together unless there is a misfit among those that are looked at. -/
theorem assemble_cases (hd : d.dropNullDefault.Settling []) :
    (∃ o, d.assemble = .ok o ∧
      ∀ k, ¬ d.dropNullDefault.Replaced unionKeys k → ∀ m, d.get? k ≠ some (.error m)) ∨
    ∃ k m, d.assemble = .error m ∧ ¬ d.dropNullDefault.Replaced unionKeys k ∧
      d.get? k = some (.error m) := by
  rw [assemble_eq_map]
  rcases inlineUnions_gather_cases (by simp) (fun _ hk => hk) hd with
    ⟨entries, hok, hclean⟩ | ⟨k, m, herr, hk, hm⟩
  · refine .inl ⟨_, by rw [hok]; rfl, fun k hk m hm => ?_⟩
    exact hclean k hk m (get?_dropNullDefault_error_iff.mpr hm)
  · exact .inr ⟨k, m, by rw [herr]; rfl, hk, get?_dropNullDefault_error_iff.mp hm⟩

end Drafts

namespace Object

variable {o : Object} {key : String}

/-- An inlined variant takes the place of the entry before anybody has looked at it. -/
def Replaced (o : Object) (key : String) : Prop :=
  Drafts.Replaced (Drafts.dropNullDefault (Node.canonicalFields Role.ofKey o)) Drafts.unionKeys key

theorem canonicalFields_eq_error_iff {m : Misfit} :
    Fields.get? (Node.canonicalFields Role.ofKey o) key = some (.error m) ↔
      ∃ v m', Fields.get? o key = some v ∧ v.canonical (Role.ofKey key) = .error m' ∧
        m'.under key = m := by
  rw [Node.get?_canonicalFields, Option.map_eq_some_iff]
  simp only [Result.mapError_eq_error_iff]
  constructor
  · rintro ⟨v, hv, m', hm', hm⟩
    exact ⟨v, m', hv, hm', hm⟩
  · rintro ⟨v, m', hv, hm', hm⟩
    exact ⟨v, hv, m', hm', hm⟩

/-- Each entry that is looked at has a canonical form, and so has the object, or a misfit in one of
them is the misfit of the object. -/
theorem canonical_cases (ho : (Node.object o).Distinct) :
    (∃ o', o.canonical = .ok o' ∧ ∀ k v, Fields.get? o k = some v → ¬ o.Replaced k →
      ∃ m, v.canonical (Role.ofKey k) = .ok m) ∨
    ∃ k v m, o.canonical = .error (m.under k) ∧ ¬ o.Replaced k ∧ Fields.get? o k = some v ∧
      v.canonical (Role.ofKey k) = .error m := by
  rcases Drafts.assemble_cases (Node.settling_canonicalFields ho) with
    ⟨o', hok, hclean⟩ | ⟨k, m, herr, hk, hm⟩
  · refine .inl ⟨o', hok, fun k v hv hk => ?_⟩
    cases hcanonical : v.canonical (Role.ofKey k) with
    | ok n => exact ⟨n, rfl⟩
    | error m =>
      have hm := canonicalFields_eq_error_iff.mpr ⟨v, m, hv, hcanonical, rfl⟩
      exact absurd hm (hclean k hk (m.under k))
  · obtain ⟨v, m', hv, hm', rfl⟩ := canonicalFields_eq_error_iff.mp hm
    exact .inr ⟨k, v, m', herr, hk, hv, hm'⟩

end Object

end ConfigSchema
