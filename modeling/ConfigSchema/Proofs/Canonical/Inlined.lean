import ConfigSchema.Proofs.Canonical.Normal

/-!
# What inlined variants bring

`o.collapses` lists the unions that give way to a variant on the way to the canonical form of `o`,
in the order in which they do, each with its variant. A union of a later keyword may itself have
come in with an earlier variant, so the list follows the drafts and not the object as it was
written. `o.inlined? key` is what the last variant with `key` has there. It is what the canonical
form has under `key`; only where no variant says anything, the object's own value counts
(`get?_canonical`).
-/

namespace ConfigSchema

namespace Drafts

/-- The unions of `keys` that give way when they have their turn, each with the variant that takes
its place. -/
def collapses (d : Drafts) : List String → Fields Object
  | [] => []
  | key :: keys =>
    match d.get? key with
    | some (.ok (.array [.object variant])) =>
      (key, variant) ::
        collapses (Fields.insertAll (d.erase key) (Fields.mapValues .ok variant)) keys
    | _ => collapses d keys

/-- The variants that take the place of the unions of `keys`. -/
def inlinedVariants (d : Drafts) (keys : List String) : List Object :=
  (d.collapses keys).map Prod.snd

/-- What the last of the objects with `key` has under it. -/
def lastUnder? (objects : List Object) (key : String) : Option Node :=
  objects.reverse.findSome? fun o => Fields.get? o key

theorem lastUnder?_cons (o : Object) (objects : List Object) (key : String) :
    lastUnder? (o :: objects) key = (lastUnder? objects key).or (Fields.get? o key) := by
  rw [lastUnder?, List.reverse_cons, List.findSome?_append]
  simp [lastUnder?]

variable {d d' : Drafts} {key : String}

theorem collapses_cons_of_single {keys : List String} {variant : Object}
    (h : d.get? key = some (.ok (.array [.object variant]))) :
    d.collapses (key :: keys) = (key, variant) ::
      collapses (Fields.insertAll (d.erase key) (Fields.mapValues .ok variant)) keys := by
  simp [collapses, h]

theorem collapses_cons_of_not_single {keys : List String}
    (h : ∀ variant, d.get? key ≠ some (.ok (.array [.object variant]))) :
    d.collapses (key :: keys) = d.collapses keys := by
  rw [collapses]
  split
  · next variant hv => exact absurd hv (h variant)
  · rfl

/-- Which unions give way depends on the unions alone. -/
theorem collapses_congr {keys : List String} (hkeys : ∀ k ∈ keys, k ∈ unionKeys)
    (h : ∀ k ∈ unionKeys, d.get? k = d'.get? k) : d.collapses keys = d'.collapses keys := by
  induction keys generalizing d d' with
  | nil => rfl
  | cons key keys ih =>
    have hkeys' : ∀ k ∈ keys, k ∈ unionKeys := fun k hk => hkeys k (List.mem_cons_of_mem _ hk)
    have hkey := h key (hkeys key (List.mem_cons_self ..))
    by_cases hone : ∃ variant, d.get? key = some (.ok (.array [.object variant]))
    · obtain ⟨variant, hone⟩ := hone
      rw [collapses_cons_of_single hone, collapses_cons_of_single (hkey ▸ hone)]
      refine congrArg ((key, variant) :: ·) (ih hkeys' fun k hk => ?_)
      refine Fields.get?_insertAll_congr ?_ _
      rw [Fields.get?_erase, Fields.get?_erase, h k hk]
    · have hd : ∀ variant, d.get? key ≠ some (.ok (.array [.object variant])) :=
        fun variant hv => hone ⟨variant, hv⟩
      rw [collapses_cons_of_not_single hd, collapses_cons_of_not_single (hkey ▸ hd)]
      exact ih hkeys' h

theorem mem_of_mem_keys_collapses {keys : List String} {k : String}
    (h : k ∈ Fields.keys (d.collapses keys)) : k ∈ keys := by
  induction keys generalizing d with
  | nil => exact h
  | cons key keys ih =>
    by_cases hone : ∃ variant, d.get? key = some (.ok (.array [.object variant]))
    · obtain ⟨variant, hone⟩ := hone
      rw [collapses_cons_of_single hone] at h
      rcases List.mem_cons.mp h with rfl | h
      · exact List.mem_cons_self ..
      · exact List.mem_cons_of_mem _ (ih h)
    · rw [collapses_cons_of_not_single fun variant hv => hone ⟨variant, hv⟩] at h
      exact List.mem_cons_of_mem _ (ih h)

/-- A variant that has been inlined brings in no union of one variant. -/
theorem get?_of_inlined_single {variant : Object} (hs : variant.Settled) {k : String}
    (hk : k ∈ unionKeys) {v : Node}
    (h : (Fields.insertAll (d.erase key) (Fields.mapValues .ok variant)).get? k =
      some (.ok (.array [v]))) :
    Fields.get? variant k = none ∧ d.get? k = some (.ok (.array [v])) := by
  rw [get?_inlined hs.distinct] at h
  cases hw : Fields.get? variant k with
  | some w =>
    rw [hw] at h
    cases h
    exact absurd hw (hs.union k hk v)
  | none =>
    rw [hw] at h
    split at h
    · cases h
    · exact ⟨rfl, h⟩

section

variable {done keys : List String} (hdone : ∀ k ∈ done, k ∈ unionKeys)
  (hkeys : ∀ k ∈ keys, k ∈ unionKeys) (hd : d.Settling done)
  (h : keys.foldlM inlineUnion d = .ok d') {k : String}

include hdone hkeys hd h

/-- A union that gives way was left with its only variant before the first union had its turn. -/
theorem get?_of_mem_collapses {variant : Object} (hk : (k, variant) ∈ d.collapses keys) :
    d.get? k = some (.ok (.array [.object variant])) := by
  induction keys generalizing d done with
  | nil => cases hk
  | cons key keys ih =>
    rw [List.foldlM_cons, Result.bind_eq_ok_iff] at h
    obtain ⟨d₁, h₁, h⟩ := h
    obtain ⟨hkey, hkeys⟩ := List.forall_mem_cons.mp hkeys
    have ih := ih (List.forall_mem_cons.mpr ⟨hkey, hdone⟩) hkeys (hd.inlineUnion hdone hkey h₁) h
    rcases inlineUnion_cases h₁ with ⟨inlined, hone, rfl⟩ | ⟨hone, -, rfl⟩
    · rw [collapses_cons_of_single hone] at hk
      rcases List.mem_cons.mp hk with heq | hk
      · cases heq
        exact hone
      · have hk' := hkeys k (mem_of_mem_keys_collapses (Fields.mem_keys_iff.mpr ⟨_, hk⟩))
        exact (get?_of_inlined_single (hd.variant hkey hone) hk' (ih hk)).2
    · rw [collapses_cons_of_not_single hone] at hk
      exact ih hk

/-- Once the unions of `keys` have had their turn, the last variant with a key decides what stands
under it. Where no variant says anything, a union that gave way is gone and all else is as it
was. -/
theorem get?_inlineUnions : d'.get? k = ((lastUnder? (d.inlinedVariants keys) k).map .ok).or
    (if k ∈ Fields.keys (d.collapses keys) then none else d.get? k) := by
  induction keys generalizing d done with
  | nil => cases h; rfl
  | cons key keys ih =>
    rw [List.foldlM_cons, Result.bind_eq_ok_iff] at h
    obtain ⟨d₁, h₁, h⟩ := h
    obtain ⟨hkey, hkeys⟩ := List.forall_mem_cons.mp hkeys
    have hdone' := List.forall_mem_cons.mpr ⟨hkey, hdone⟩
    have hd₁ := hd.inlineUnion hdone hkey h₁
    rw [ih hdone' hkeys hd₁ h]
    rcases inlineUnion_cases h₁ with ⟨variant, hone, rfl⟩ | ⟨hone, -, rfl⟩
    · have hs := hd.variant hkey hone
      rw [inlinedVariants, inlinedVariants, collapses_cons_of_single hone, List.map_cons,
        lastUnder?_cons, Option.map_or, Option.or_assoc]
      simp only [Fields.keys_cons, List.mem_cons, get?_inlined hs.distinct]
      refine congrArg (Option.or _) ?_
      split
      · next hk =>
        -- this union gives way later on, so the variant has nothing under its keyword
        obtain ⟨later, hlater⟩ := Fields.mem_keys_iff.mp hk
        have hget := get?_of_mem_collapses hdone' hkeys hd₁ h hlater
        have hnone := (get?_of_inlined_single hs (hkeys k (mem_of_mem_keys_collapses hk)) hget).1
        rw [if_pos (.inr hk), hnone]
        rfl
      · next hk => simp only [or_iff_left hk, eq_comm]
    · rw [inlinedVariants, inlinedVariants, collapses_cons_of_not_single hone]

end

end Drafts

namespace Object

variable {o o' : Object}

/-- The unions that give way, each with the variant that takes its place. -/
def collapses (o : Object) : Fields Object :=
  Drafts.collapses (Drafts.dropNullDefault (Node.canonicalFields Role.ofKey o)) Drafts.unionKeys

/-- The variants that take the place of a union in the canonical form. -/
def inlinedVariants (o : Object) : List Object := o.collapses.map Prod.snd

/-- What inlined variants bring in under `key`. -/
def inlined? (o : Object) (key : String) : Option Node := Drafts.lastUnder? o.inlinedVariants key

/-- Entries that are no unions have no part in what is inlined. -/
theorem inlined?_congr {p : Object} (h : ∀ k ∈ Drafts.unionKeys, Fields.get? o k = Fields.get? p k)
    (key : String) : o.inlined? key = p.inlined? key := by
  have hcollapses : o.collapses = p.collapses := by
    refine Drafts.collapses_congr (fun _ hk => hk) fun k hk => ?_
    have hk' : k ≠ "default" := by
      rintro rfl
      revert hk
      decide
    rw [Drafts.get?_dropNullDefault hk', Drafts.get?_dropNullDefault hk', Node.get?_canonicalFields,
      Node.get?_canonicalFields, h k hk]
  rw [inlined?, inlined?, inlinedVariants, inlinedVariants, hcollapses]

theorem inlined?_insert {k : String} (hk : k ∉ Drafts.unionKeys) (v : Node) (key : String) :
    inlined? (Fields.insert o k v) key = o.inlined? key := by
  refine inlined?_congr (fun k' hk' => ?_) key
  have hne : k ≠ k' := fun hne => hk (hne ▸ hk')
  rw [Fields.get?_insert, if_neg hne]

section

variable (ho : (Node.object o).Distinct) (h : o.canonical = .ok o') {k : String}

include ho h

/-- The last inlined variant with a key decides what the canonical form has under it. Where no
variant says anything, a union that gave way is gone, and all else is there in canonical form. -/
theorem get?_canonical_cases : (Fields.get? o' k).map .ok = ((o.inlined? k).map .ok).or
    (if k ∈ Fields.keys o.collapses then none
      else Fields.get? (Drafts.dropNullDefault (Node.canonicalFields Role.ofKey o)) k) := by
  obtain ⟨entries, hm, rfl⟩ := Drafts.assemble_eq_ok_iff.mp h
  have hs := Node.settling_canonicalFields ho
  have hdis := Drafts.distinct_inlineUnions hm hs.distinct
  rw [Fields.get?_sortBy (Fields.distinct_mapValues.mp hdis), ← Fields.get?_mapValues]
  exact Drafts.get?_inlineUnions (by simp) (fun _ hk => hk) hs hm

/-- Under a key that is no union and that the removal of a null default leaves alone. -/
theorem get?_canonical_of_kept (hunion : k ∉ Drafts.unionKeys)
    (hkept : Fields.get? (Drafts.dropNullDefault (Node.canonicalFields Role.ofKey o)) k =
      Fields.get? (Node.canonicalFields Role.ofKey o) k) :
    (Fields.get? o' k).map .ok = ((o.inlined? k).map .ok).or
      ((Fields.get? o k).map fun v => (v.canonical (Role.ofKey k)).mapError (Misfit.under k)) := by
  have hgone : k ∉ Fields.keys o.collapses := mt Drafts.mem_of_mem_keys_collapses hunion
  rw [get?_canonical_cases ho h, if_neg hgone, hkept, Node.get?_canonicalFields]

/-- Plain data that is not null stays as it is, unless an inlined variant brings in something
else. -/
theorem get?_canonical_of_data (hrole : Role.ofKey k = .data) {v : Node} (hnull : v ≠ .null)
    (hv : Fields.get? o k = some v) : Fields.get? o' k = some ((o.inlined? k).getD v) := by
  have hdraft : Fields.get? (Node.canonicalFields Role.ofKey o) k = some (.ok v) := by
    rw [Node.get?_canonicalFields, hv, Option.map_some, hrole, Node.canonical_data]
    rfl
  have hunion : k ∉ Drafts.unionKeys := by
    intro hk
    rw [Role.ofKey_of_mem_unionKeys hk] at hrole
    cases hrole
  have hkept : Fields.get? (Drafts.dropNullDefault (Node.canonicalFields Role.ofKey o)) k =
      Fields.get? (Node.canonicalFields Role.ofKey o) k := by
    by_cases hk : k = "default"
    · subst hk
      rw [Drafts.dropNullDefault_of_ne]
      rw [hdraft]
      simpa using hnull
    · exact Drafts.get?_dropNullDefault hk
  have hget := get?_canonical_of_kept ho h hunion hkept
  rw [← Node.get?_canonicalFields, hdraft] at hget
  cases hin : o.inlined? k with
  | none =>
    rw [hin] at hget
    obtain ⟨w, hw, hwv⟩ := Option.map_eq_some_iff.mp hget
    cases hwv
    exact hw
  | some w =>
    rw [hin] at hget
    obtain ⟨w', hw', hwv⟩ := Option.map_eq_some_iff.mp hget
    cases hwv
    exact hw'

variable (hunion : k ∉ Drafts.unionKeys) (hdefault : k ≠ "default")

include hunion hdefault

/-- Away from unions and the default, the canonical form has what an inlined variant brings in, and
otherwise the canonical form of the object's own value, which has one then. -/
theorem get?_canonical :
    (Fields.get? o' k).map .ok = ((o.inlined? k).map .ok).or
      ((Fields.get? o k).map fun v => (v.canonical (Role.ofKey k)).mapError (Misfit.under k)) :=
  get?_canonical_of_kept ho h hunion (Drafts.get?_dropNullDefault hdefault)

theorem get?_canonical_of_inlined {v : Node} (hv : o.inlined? k = some v) :
    Fields.get? o' k = some v := by
  have hget := get?_canonical ho h hunion hdefault
  rw [hv] at hget
  obtain ⟨w, hw, hwv⟩ := Option.map_eq_some_iff.mp hget
  cases hwv
  exact hw

theorem get?_canonical_of_not_inlined (hnone : o.inlined? k = none) {v : Node}
    (hv : Fields.get? o k = some v) :
    ∃ m, v.canonical (Role.ofKey k) = .ok m ∧ Fields.get? o' k = some m := by
  have hget := get?_canonical ho h hunion hdefault
  rw [hnone, hv] at hget
  obtain ⟨m, hm, hmv⟩ := Option.map_eq_some_iff.mp hget
  exact ⟨m, Result.mapError_eq_ok_iff.mp hmv.symm, hm⟩

theorem get?_canonical_of_absent (hnone : o.inlined? k = none) (hv : Fields.get? o k = none) :
    Fields.get? o' k = none := by
  have hget := get?_canonical ho h hunion hdefault
  rw [hnone, hv] at hget
  exact Option.map_eq_none_iff.mp hget

end

end Object

end ConfigSchema
