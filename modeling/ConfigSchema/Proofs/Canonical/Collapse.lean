import ConfigSchema.Proofs.Canonical.Inlined
import ConfigSchema.Proofs.Canonical.SecondPass

/-!
# What is left after a collapse

A union collapses when it is left with one variant and gives way to the entries of that variant;
`o.collapses` lists the unions of `o` that do, in the order of their turns. A collapsing union
stands in `o` as it was written (`exists_union_of_mem_collapses`). The last variant has the last
word: all its entries are in the canonical form as they are in the variant. Apart from what variants
bring in, the canonical form has the keys of the object without those of the collapsed unions
(`entries_canonicalAt_of_collapses`).
-/

namespace ConfigSchema

namespace Drafts

variable {objects : List Object} {key : String}

theorem lastUnder?_of_getLast? {o : Object} (h : objects.getLast? = some o) {v : Node}
    (hv : Fields.get? o key = some v) : lastUnder? objects key = some v := by
  obtain ⟨before, rfl⟩ := List.getLast?_eq_some_iff.mp h
  simp [lastUnder?, hv]

theorem lastUnder?_isSome_iff :
    (lastUnder? objects key).isSome ↔ ∃ o ∈ objects, key ∈ Fields.keys o := by
  simp [lastUnder?, List.findSome?_isSome_iff, Fields.get?_isSome_iff]

end Drafts

namespace Object

variable {o o' variant : Object} {key k : String}

theorem inlined?_of_getLast? (h : o.collapses.getLast? = some (key, variant)) {v : Node}
    (hv : Fields.get? variant k = some v) : o.inlined? k = some v := by
  refine Drafts.lastUnder?_of_getLast? ?_ hv
  rw [inlinedVariants, List.getLast?_map, h]
  rfl

theorem inlined?_isSome_iff :
    (o.inlined? k).isSome ↔ ∃ c ∈ o.collapses, k ∈ Fields.keys c.2 := by
  rw [inlined?, Drafts.lastUnder?_isSome_iff, inlinedVariants]
  constructor
  · rintro ⟨_, hmem, hk⟩
    obtain ⟨c, hc, rfl⟩ := List.mem_map.mp hmem
    exact ⟨c, hc, hk⟩
  · rintro ⟨c, hc, hk⟩
    exact ⟨c.2, List.mem_map_of_mem hc, hk⟩

section

variable (ho : (Node.object o).Distinct) (h : o.canonical = .ok o')

include ho h

/-- The canonical form has what the last inlined variant with a key brings in under it, and
otherwise the canonical form of what stands there in the object, unless that is a collapsed
union. -/
theorem map_get?_canonical (k : String) : (Fields.get? o' k).map .ok =
    ((o.inlined? k).map .ok).or (if k ∈ Fields.keys o.collapses then none
      else (Fields.get? o.dropNullDefault k).map fun v =>
        (v.canonical (Role.ofKey k)).mapError (Misfit.under k)) := by
  rw [get?_canonical_cases ho h, ← get?_drafts, drafts_dropNullDefault]
  rfl

theorem mem_keys_canonical_iff : k ∈ Fields.keys o' ↔
    (∃ c ∈ o.collapses, k ∈ Fields.keys c.2) ∨
      (k ∈ Fields.keys o.dropNullDefault ∧ k ∉ Fields.keys o.collapses) := by
  have hget := congrArg Option.isSome (map_get?_canonical ho h k)
  rw [Option.isSome_map, Option.isSome_or, Option.isSome_map] at hget
  rw [← Fields.get?_isSome_iff, hget, Bool.or_eq_true, inlined?_isSome_iff]
  refine or_congr Iff.rfl ?_
  split
  · next hk => simp [hk]
  · next hk => simp [hk, ← Fields.get?_isSome_iff]

/-- A union that collapses stands in the object as it was written, and in its canonical form it has
only that variant. -/
theorem exists_union_of_mem_collapses (hc : (key, variant) ∈ o.collapses) :
    ∃ xs, Fields.get? o key = some (.array xs) ∧
      (Node.array xs).canonical .union = .ok (.array [.object variant]) := by
  have hkey : key ∈ Drafts.unionKeys :=
    Drafts.mem_of_mem_keys_collapses (Fields.mem_keys_iff.mpr ⟨_, hc⟩)
  have hdefault : key ≠ "default" := by
    rintro rfl
    revert hkey
    decide
  obtain ⟨entries, hm, -⟩ := Drafts.assemble_eq_ok_iff.mp h
  have hget := Drafts.get?_of_mem_collapses (by simp) (fun _ hk => hk)
    (Node.settling_canonicalFields ho) hm hc
  rw [Drafts.get?_dropNullDefault hdefault, Node.get?_canonicalFields,
    Role.ofKey_of_mem_unionKeys hkey] at hget
  obtain ⟨v, hv, hcanonical⟩ := Option.map_eq_some_iff.mp hget
  have hcanonical := Result.mapError_eq_ok_iff.mp hcanonical
  cases v with
  | array xs => exact ⟨xs, hv, hcanonical⟩
  | _ => cases hcanonical

end

/-- The last union that collapses is left with one variant. Every entry of this variant is in the
canonical form with the value it has in the variant. Every key of the object is there too, unless it
is that of a null default or a collapsed union; the other keys are those that variants bring in. -/
theorem entries_canonicalAt_of_collapses {location : String} (ho : (Node.object o).Distinct)
    (h : o.canonicalAt location = .ok o') (hlast : o.collapses.getLast? = some (key, variant)) :
    (∃ xs, Fields.get? o key = some (.array xs) ∧
      (Node.array xs).canonical .union = .ok (.array [.object variant])) ∧
    (∀ k v, Fields.get? variant k = some v → Fields.get? o' k = some v) ∧
    ∀ k, k ∈ Fields.keys o' ↔ (∃ c ∈ o.collapses, k ∈ Fields.keys c.2) ∨
      (k ∈ Fields.keys o.dropNullDefault ∧ k ∉ Fields.keys o.collapses) := by
  have h := canonicalAt_eq_ok_iff.mp h
  refine ⟨exists_union_of_mem_collapses ho h (List.mem_of_getLast? hlast), fun k v hv => ?_,
    fun k => mem_keys_canonical_iff ho h⟩
  have hget := map_get?_canonical ho h k
  rw [inlined?_of_getLast? hlast hv] at hget
  obtain ⟨w, hw, hwv⟩ := Option.map_eq_some_iff.mp hget
  cases hwv
  exact hw

/-- Two unions collapse, and each of their variants has a title. -/
def overlaidTitle : Object := [
  ("title", .string "outer"),
  ("oneOf", .array [.object [("type", .string "null")], .object [
    ("title", .string "last"),
    ("allOf", .array [.object [("minimum", .number (.natural 1))],
      .object [("type", .string "integer"), ("default", .null)]])]]),
  ("default", .null),
  ("description", .string "kept"),
  ("anyOf", .array [.object [("title", .string "first"), ("type", .string "number")]])]

/-- The canonical form of `overlaidTitle`. -/
def lastTitle : Object := [
  ("title", .string "last"),
  ("description", .string "kept"),
  ("type", .string "number"),
  ("allOf", .array [.object [("minimum", .number (.natural 1))],
    .object [("type", .string "integer")]])]

/-- The last variant that collapses in `overlaidTitle`. -/
def overlay : Object := [
  ("title", .string "last"),
  ("allOf", .array [.object [("minimum", .number (.natural 1))],
    .object [("type", .string "integer")]])]

theorem entries_canonicalAt_of_collapses_overlaidTitle :
    (Node.object overlaidTitle).Distinct ∧ overlaidTitle.canonicalAt "" = .ok lastTitle ∧
      overlaidTitle.collapses.getLast? = some ("oneOf", overlay) ∧
      (∃ xs, Fields.get? overlaidTitle "oneOf" = some (.array xs) ∧
        (Node.array xs).canonical .union = .ok (.array [.object overlay])) ∧
      (∀ k v, Fields.get? overlay k = some v → Fields.get? lastTitle k = some v) ∧
      ∀ k, k ∈ Fields.keys lastTitle ↔
        (∃ c ∈ overlaidTitle.collapses, k ∈ Fields.keys c.2) ∨
          (k ∈ Fields.keys overlaidTitle.dropNullDefault ∧
            k ∉ Fields.keys overlaidTitle.collapses) := by
  have ho : (Node.object overlaidTitle).Distinct := by decide
  have h : overlaidTitle.canonicalAt "" = .ok lastTitle := rfl
  have hlast : overlaidTitle.collapses.getLast? = some ("oneOf", overlay) := rfl
  exact ⟨ho, h, hlast, entries_canonicalAt_of_collapses ho h hlast⟩

end Object

end ConfigSchema
