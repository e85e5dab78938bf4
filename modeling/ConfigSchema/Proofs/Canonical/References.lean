import ConfigSchema.Proofs.Canonical.Growth
import ConfigSchema.Proofs.Canonical.Inlined
import ConfigSchema.Proofs.Schema.References

/-!
# References in the canonical form

The canonical form brings in no reference: an entry there is the canonical form of an entry of the
document, and a text is its own canonical form (`everywhere_entries_canonical`). It may however take
away the definitions that a reference needs, since a root variant that is inlined overwrites `$defs`
like any other key. Apart from that a schema that passed the check passes it again
(`checkReferences_canonical_iff`).
-/

namespace ConfigSchema

def Object.Entries (E : String → Node → Prop) (o : Object) : Prop := ∀ k v, (k, v) ∈ o → E k v

namespace Node

/-- What each entry passes on to its canonical form in any role holds of all entries of a canonical
form, wherever they come from. -/
theorem everywhere_entries_canonical {E : String → Node → Prop}
    (hE : ∀ role k v m, E k v → canonical role v = .ok m → E k m) {n m : Node} {role : Role}
    (hn : n.Everywhere (Object.Entries E)) (h : n.canonical role = .ok m) :
    m.Everywhere (Object.Entries E) := by
  induction n using Node.induct generalizing role m with
  | scalar n ho ha =>
    cases n with
    | object => cases ho
    | array => cases ha
    | _ => rw [eq_of_unchanged h]; exact hn
  | array xs ih =>
    rcases canonical_array_cases h with ⟨-, vs, rfl, hvs⟩ | ⟨-, rfl⟩
    · refine everywhere_array.mpr fun v hv => ?_
      obtain ⟨-, x, hx, hxv⟩ := hvs v hv
      exact ih x hx (hn.item hx) hxv
    · exact hn
  | object fs ih =>
    have drafts (roles : String → Role) :
        Drafts.Holds (fun k v => E k v ∧ v.Everywhere (Object.Entries E))
          (canonicalFields roles fs) := by
      refine holds_canonicalFields fun k v m hv hvm => ⟨?_, ih k v hv (hn.entry hv) hvm⟩
      exact hE _ k v m ((everywhere_object.mp hn).1 k v hv) hvm
    have descends : Drafts.Descends fun k v => E k v ∧ v.Everywhere (Object.Entries E) := by
      rintro key - variant ⟨-, hvariant⟩ k v hv
      have hvariant := everywhere_object.mp (hvariant.item (List.mem_cons_self ..))
      exact ⟨hvariant.1 k v hv, hvariant.2 k v hv⟩
    rcases canonical_object_cases h with ⟨-, o, ho, rfl⟩ | ⟨member, -, o, ho, rfl⟩ | ⟨-, rfl⟩
    · have ho {k : String} {v : Node} (hv : (k, v) ∈ o) :=
        Drafts.Holds.assemble descends (drafts _) ho hv
      exact everywhere_object.mpr ⟨fun _ _ hv => (ho hv).1, fun _ _ hv => (ho hv).2⟩
    · have ho {k : String} {v : Node} (hv : (k, v) ∈ o) := (drafts _).assembleMap ho hv
      exact everywhere_object.mpr ⟨fun _ _ hv => (ho hv).1, fun _ _ hv => (ho hv).2⟩
    · exact hn

theorem everywhere_referenceIn_canonical {D : String → Prop} {n m : Node} {role : Role}
    (hn : n.Distinct) (hD : n.Everywhere (Object.ReferenceIn D)) (h : n.canonical role = .ok m) :
    m.Everywhere (Object.ReferenceIn D) := by
  let E (k : String) (v : Node) : Prop := k = "$ref" → ∃ reference name, v = .string reference ∧
    Schema.targetName? reference = some name ∧ D name
  have entries : n.Everywhere (Object.Entries E) := by
    refine Everywhere.imp₂ (fun o hdis ho => ?_) hn hD
    rintro _ v hv rfl
    exact ho v (Fields.get?_of_mem hdis hv)
  refine (everywhere_entries_canonical ?_ entries h).mono fun o ho v hv => ?_
  · rintro role k v m hv hvm rfl
    obtain ⟨reference, name, rfl, hname⟩ := hv rfl
    rw [eq_of_unchanged hvm]
    exact ⟨reference, name, rfl, hname⟩
  · exact ho _ v (Fields.mem_of_get? hv) rfl

theorem keys_canonical_namedSchemas {n m : Node} (h : n.canonical .namedSchemas = .ok m)
    (name : String) :
    name ∈ Fields.keys (m.object?.getD []) ↔ name ∈ Fields.keys (n.object?.getD []) := by
  cases n with
  | object fs =>
    obtain ⟨entries, rfl, hkeys, -⟩ := @exists_entries_of_member .namedSchemas _ rfl _ _ h
    show name ∈ Fields.keys entries.sort ↔ name ∈ Fields.keys fs
    rw [← hkeys]
    exact (Fields.keys_sortBy_perm entries).mem_iff
  | _ => cases h; exact Iff.rfl

end Node

namespace Schema

variable {s t : Schema}

/-- The canonical form of a schema is a schema: no key comes to stand twice in an object. -/
theorem exists_toNode_of_canonical {n : Node} (h : s.canonical = .ok n) :
    ∃ t : Schema, n = t.toNode := by
  obtain ⟨o, ho, rfl⟩ := canonical_eq_ok_iff.mp h
  have hs : s.toNode.Within s.toNode.depth := ⟨s.distinct, Nat.le_refl _⟩
  exact ⟨⟨o, (hs.canonical (Node.canonical_root ho)).distinct⟩, rfl⟩

theorem definitions_eq (s : Schema) :
    s.definitions = ((Fields.get? s.root "$defs").bind Node.object?).getD [] := rfl

/-- Unless an inlined variant replaces them, the canonical form has the definitions of the
schema. -/
theorem mem_keys_definitions_canonical (h : s.root.canonical = .ok t.root)
    (hnone : s.root.inlined? "$defs" = none) (name : String) :
    name ∈ Fields.keys t.definitions ↔ name ∈ Fields.keys s.definitions := by
  have hunion : "$defs" ∉ Drafts.unionKeys := by decide
  have hdefault : "$defs" ≠ "default" := by decide
  rw [definitions_eq, definitions_eq]
  cases hv : Fields.get? s.root "$defs" with
  | none => rw [Object.get?_canonical_of_absent s.distinct h hunion hdefault hnone hv]
  | some v =>
    obtain ⟨m, hvm, hm⟩ :=
      Object.get?_canonical_of_not_inlined s.distinct h hunion hdefault hnone hv
    rw [hm]
    exact Node.keys_canonical_namedSchemas hvm name

/-- A schema that passed the check passes it again in its canonical form, exactly if the definitions
that an inlined root variant may bring in place of its own have every name that is still used. -/
theorem checkReferences_canonical_iff (hc : s.checkReferences = .ok ())
    (ht : s.canonical = .ok t.toNode) :
    t.checkReferences = .ok () ↔ ∀ definitions, s.root.inlined? "$defs" = some definitions →
      ∀ name ∈ t.usedDefinitions, name ∈ Fields.keys (definitions.object?.getD []) := by
  obtain ⟨o, ho, hroot⟩ := canonical_eq_ok_iff.mp ht
  cases hroot
  have hrefs := Node.everywhere_referenceIn_canonical s.distinct
    (Node.checkReferences_eq_ok_iff.mp hc) (Node.canonical_root ho)
  obtain ⟨hform, hused⟩ := Node.everywhere_referenceIn_iff.mp hrefs
  have hform : t.toNode.Everywhere (Object.ReferenceIn fun _ => True) := hform
  rw [checkReferences_eq_ok_iff, and_iff_right hform]
  cases hin : s.root.inlined? "$defs" with
  | none =>
    refine iff_of_true (fun name hname => ?_) (fun _ h => by cases h)
    exact (mem_keys_definitions_canonical ho hin name).mpr
      (hused name (mem_usedDefinitions.mp hname))
  | some definitions =>
    have hget := Object.get?_canonical_of_inlined s.distinct ho (by decide) (by decide) hin
    have hdefs : t.definitions = definitions.object?.getD [] := by
      rw [definitions_eq, hget]
      rfl
    rw [hdefs]
    exact ⟨fun h _ hd => by cases hd; exact h, fun h => h definitions rfl⟩

/-- A schema with two definitions, which an optional part of its root replaces by one. -/
def replaced : Schema := ⟨[
  ("properties", .object [("x", .object [("$ref", .string "#/$defs/A")])]),
  ("anyOf", .array [
    .object [("$defs", .object [("B", .object [("type", .string "integer")])])],
    .object [("type", .string "null")]]),
  ("$defs", .object [("A", .object [("type", .string "string")]), ("B", .object [])])], by decide⟩

/-- The canonical form of `replaced`: nothing is left of the definition that `x` refers to. -/
def replacedCanonical : Schema := ⟨[
  ("properties", .object [("x", .object [("$ref", .string "#/$defs/A")])]),
  ("$defs", .object [("B", .object [("type", .string "integer")])])], by decide⟩

theorem checkReferences_canonical_iff_replaced :
    replaced.checkReferences = .ok () ∧ (replacedCanonical.checkReferences = .ok () ↔
      ∀ definitions, replaced.root.inlined? "$defs" = some definitions →
        ∀ name ∈ replacedCanonical.usedDefinitions,
          name ∈ Fields.keys (definitions.object?.getD [])) :=
  ⟨rfl, @checkReferences_canonical_iff replaced replacedCanonical rfl rfl⟩

/-- Passing the check does not carry over to the canonical form. -/
theorem not_checkReferences_canonical :
    ¬ ∀ s t : Schema, s.checkReferences = .ok () → s.canonical = .ok t.toNode →
      t.checkReferences = .ok () := by
  intro h
  have hok : replacedCanonical.checkReferences = .ok () := h replaced replacedCanonical rfl rfl
  have herr : replacedCanonical.checkReferences = .error (.unresolved "#/$defs/A" "A") := rfl
  rw [herr] at hok
  cases hok

end Schema

end ConfigSchema
