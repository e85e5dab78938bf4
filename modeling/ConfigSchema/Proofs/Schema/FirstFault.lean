import ConfigSchema.Proofs.Json.Pointer
import ConfigSchema.Proofs.Schema.References

/-!
# The first reference that cannot be followed

`n.objects path` lists the objects in a value with their paths, in document order and an object
before those inside it. The check of references looks at one after the other
(`checkReferences_eq_forM`), so it fails at the first whose reference is bad, and as `BadReference`
says. It passes exactly if the references are well-formed and the definitions in use exist, which
the other walk collects; so the two walks see the same objects (`checkReferences_firstFault`).
-/

namespace ConfigSchema

/-! ### The text of a reference -/

namespace Schema

/-- The text is a reference to the definition of that name. -/
def RefersTo (reference name : String) : Prop :=
  reference = "#/$defs/" ++ name ∧ name ≠ "" ∧ '/' ∉ name.toList

theorem targetName?_eq_some_iff {reference name : String} :
    targetName? reference = some name ↔ RefersTo reference name := by
  have hsplit (rest : List Char) :
      definitionsPointer.toList.isPrefixOf? reference.toList = some rest ↔
        reference = definitionsPointer ++ String.ofList rest := by
    rw [List.isPrefixOf?_eq_some_iff_append_eq, ← String.toList_inj, String.toList_append,
      String.toList_ofList, eq_comm]
  unfold targetName? RefersTo
  split
  · next hnone =>
    refine iff_of_false (fun h => by cases h) fun ⟨h, _⟩ => ?_
    rw [← String.ofList_toList (s := name)] at h
    rw [(hsplit _).mpr h] at hnone
    cases hnone
  · next rest hrest =>
    rw [hsplit] at hrest
    have hname : reference = definitionsPointer ++ name ↔ String.ofList rest = name := by
      rw [hrest, ← String.toList_inj, String.toList_append, String.toList_append,
        List.append_cancel_left_eq, String.toList_inj]
    show _ ↔ reference = definitionsPointer ++ name ∧ _
    rw [hname]
    constructor
    · intro h
      split at h
      · cases h
      · next hgood =>
        cases h
        simpa using hgood
    · rintro ⟨rfl, hne, hslash⟩
      have hrest : rest ≠ [] := fun h => hne (by rw [h])
      rw [String.toList_ofList] at hslash
      rw [if_neg (by simpa using ⟨hrest, hslash⟩)]

theorem target_eq_error_iff {reference : String} {e : SchemaError} :
    target reference = .error e ↔
      (∀ name, ¬ RefersTo reference name) ∧ e = .unsupported reference := by
  simp only [← targetName?_eq_some_iff]
  rw [target]
  cases targetName? reference with
  | none => simp [eq_comm]
  | some name => simp

end Schema

/-! ### The objects in document order -/

namespace Node

mutual

/-- The objects in a value that stands at the end of the path. -/
def objects (path : List String) : Node → List (List String × Object)
  | .object fs => (path, fs) :: objectsFields path fs
  | .array xs => objectsItems path 0 xs
  | _ => []

def objectsItems (path : List String) (index : Nat) : List Node → List (List String × Object)
  | [] => []
  | x :: xs => x.objects (path ++ [toString index]) ++ objectsItems path (index + 1) xs

def objectsFields (path : List String) : Object → List (List String × Object)
  | [] => []
  | (k, v) :: fs => v.objects (path ++ [k]) ++ objectsFields path fs

end

variable {path : List String} {x : List String × Object}

theorem objects_scalar {n : Node} (ho : n.object? = none) (ha : n.array? = none) :
    n.objects path = [] := by
  cases n with
  | object => cases ho
  | array => cases ha
  | _ => rfl

theorem mem_objectsItems {index : Nat} {xs : List Node} : x ∈ objectsItems path index xs ↔
    ∃ (i : Nat) (n : Node), xs[i]? = some n ∧ x ∈ n.objects (path ++ [toString (index + i)]) := by
  induction xs generalizing index with
  | nil => simp [objectsItems]
  | cons y xs ih =>
    rw [objectsItems, List.mem_append, ih]
    constructor
    · rintro (h | ⟨i, n, hn, h⟩)
      · exact ⟨0, y, rfl, h⟩
      · exact ⟨i + 1, n, hn, by rwa [← Nat.add_assoc, Nat.add_right_comm]⟩
    · rintro ⟨i, n, hn, h⟩
      cases i with
      | zero => cases hn; exact .inl h
      | succ i => exact .inr ⟨i, n, hn, by rwa [← Nat.add_assoc, Nat.add_right_comm] at h⟩

theorem mem_objectsFields {fs : Object} : x ∈ objectsFields path fs ↔
    ∃ k v, (k, v) ∈ fs ∧ x ∈ v.objects (path ++ [k]) := by
  induction fs with
  | nil => simp [objectsFields]
  | cons e fs ih =>
    obtain ⟨key, w⟩ := e
    rw [objectsFields, List.mem_append, ih]
    constructor
    · rintro (h | ⟨k, v, hv, h⟩)
      · exact ⟨key, w, List.mem_cons_self .., h⟩
      · exact ⟨k, v, List.mem_cons_of_mem _ hv, h⟩
    · rintro ⟨k, v, hv, h⟩
      rcases List.mem_cons.mp hv with hv | hv
      · cases hv; exact .inl h
      · exact .inr ⟨k, v, hv, h⟩

/-- All objects in a value are listed, and no others. -/
theorem everywhere_iff_objects {Q : Object → Prop} {n : Node} :
    n.Everywhere Q ↔ ∀ x ∈ n.objects path, Q x.2 := by
  induction n using Node.induct generalizing path with
  | scalar n ho ha =>
    rw [objects_scalar ho ha]
    exact iff_of_true (everywhere_scalar ho ha) fun x hx => by cases hx
  | array xs ih =>
    rw [everywhere_array, objects]
    constructor
    · intro h x hx
      obtain ⟨i, n, hn, hx⟩ := mem_objectsItems.mp hx
      have hn := List.mem_of_getElem? hn
      exact (ih n hn).mp (h n hn) x hx
    · intro h n hn
      obtain ⟨i, hi⟩ := List.mem_iff_getElem?.mp hn
      exact (ih n hn).mpr fun x hx => h x (mem_objectsItems.mpr ⟨i, n, hi, hx⟩)
  | object fs ih =>
    rw [everywhere_object, objects, List.forall_mem_cons]
    refine and_congr_right fun _ => ⟨fun h x hx => ?_, fun h k v hv => ?_⟩
    · obtain ⟨k, v, hv, hx⟩ := mem_objectsFields.mp hx
      exact (ih k v hv).mp (h k v hv) x hx
    · exact (ih k v hv).mpr fun x hx => h x (mem_objectsFields.mpr ⟨k, v, hv, hx⟩)

/-- Each of the objects stands at the end of its path. -/
theorem follow_of_mem_objects {n : Node} (hn : n.Distinct) (hx : x ∈ n.objects path) :
    ∃ rest, x.1 = path ++ rest ∧ n.follow rest = some (.object x.2) := by
  induction n using Node.induct generalizing path with
  | scalar n ho ha =>
    rw [objects_scalar ho ha] at hx
    cases hx
  | array xs ih =>
    rw [objects, mem_objectsItems] at hx
    obtain ⟨i, m, hm, hx⟩ := hx
    have hmem := List.mem_of_getElem? hm
    obtain ⟨rest, hpath, hrest⟩ := ih m hmem (hn.item hmem) hx
    refine ⟨toString i :: rest, by rw [hpath, Nat.zero_add, List.append_assoc]; rfl, ?_⟩
    rw [follow, child?_index, hm]
    exact hrest
  | object fs ih =>
    rw [objects] at hx
    rcases List.mem_cons.mp hx with rfl | hx
    · exact ⟨[], (List.append_nil path).symm, rfl⟩
    · obtain ⟨k, v, hv, hx⟩ := mem_objectsFields.mp hx
      obtain ⟨rest, hpath, hrest⟩ := ih k v hv (hn.entry hv) hx
      refine ⟨k :: rest, by rw [hpath, List.append_assoc]; rfl, ?_⟩
      rw [follow, child?, Fields.get?_of_mem hn.keys hv]
      exact hrest

end Node

/-! ### The check goes from object to object -/

variable {definitions : Object}

/-- The check of one of the objects of a document. -/
def Object.checkAt (definitions : Object) (x : List String × Object) : Except SchemaError Unit :=
  checkReference definitions (Pointer.ofTokens x.1) x.2

namespace Node

theorem checkItems_eq_forM {path : List String} {index : Nat} {xs : List Node}
    (h : ∀ x ∈ xs, ∀ path, x.checkReferences definitions (Pointer.ofTokens path) =
      forM (x.objects path) (Object.checkAt definitions)) :
    checkItems definitions (Pointer.ofTokens path) index xs =
      forM (objectsItems path index xs) (Object.checkAt definitions) := by
  induction xs generalizing index with
  | nil => rfl
  | cons x xs ih =>
    obtain ⟨hx, hxs⟩ := List.forall_mem_cons.mp h
    rw [checkItems, objectsItems, List.forM_append, Pointer.child_ofTokens, hx, ih hxs]

theorem checkFields_eq_forM {path : List String} {fs : Object}
    (h : ∀ k v, (k, v) ∈ fs → ∀ path, v.checkReferences definitions (Pointer.ofTokens path) =
      forM (v.objects path) (Object.checkAt definitions)) :
    checkFields definitions (Pointer.ofTokens path) fs =
      forM (objectsFields path fs) (Object.checkAt definitions) := by
  induction fs with
  | nil => rfl
  | cons e fs ih =>
    obtain ⟨k, v⟩ := e
    obtain ⟨hv, hfs⟩ := Fields.forall_mem_cons.mp h
    rw [checkFields, objectsFields, List.forM_append, Pointer.child_ofTokens, hv, ih hfs]

theorem checkReferences_eq_forM (n : Node) (path : List String) :
    n.checkReferences definitions (Pointer.ofTokens path) =
      forM (n.objects path) (Object.checkAt definitions) := by
  induction n using Node.induct generalizing path with
  | scalar n ho ha =>
    cases n with
    | object => cases ho
    | array => cases ha
    | _ => rfl
  | array xs ih =>
    rw [checkReferences, objects]
    exact checkItems_eq_forM ih
  | object fs ih =>
    rw [checkReferences, objects, List.forM_cons, checkFields_eq_forM ih]
    rfl

end Node

/-! ### The first fault -/

namespace Object

/-- Why the reference of the object at the end of the path cannot be followed. -/
inductive BadReference (o definitions : Object) (path : List String) : SchemaError → Prop
  | notText {v : Node} (hv : Fields.get? o "$ref" = some v) (h : v.string? = none) :
      BadReference o definitions path (.malformed (Pointer.ofTokens (path ++ ["$ref"])) .text)
  | foreign {reference : String} (hv : Fields.get? o "$ref" = some (.string reference))
      (h : ∀ name, ¬ Schema.RefersTo reference name) :
      BadReference o definitions path (.unsupported reference)
  | dead {reference name : String} (hv : Fields.get? o "$ref" = some (.string reference))
      (hname : Schema.RefersTo reference name) (h : name ∉ Fields.keys definitions) :
      BadReference o definitions path (.unresolved reference name)

variable {o : Object} {path : List String} {reference : String} {e : SchemaError}

theorem badReference_string_iff (hv : Fields.get? o "$ref" = some (.string reference)) :
    o.BadReference definitions path e ↔
      ((∀ name, ¬ Schema.RefersTo reference name) ∧ e = .unsupported reference) ∨
      ∃ name, Schema.RefersTo reference name ∧ name ∉ Fields.keys definitions ∧
        e = .unresolved reference name := by
  constructor
  · intro h
    cases h with
    | notText hv' h => rw [hv] at hv'; cases hv'; cases h
    | foreign hv' h => rw [hv] at hv'; cases hv'; exact .inl ⟨h, rfl⟩
    | dead hv' hname h => rw [hv] at hv'; cases hv'; exact .inr ⟨_, hname, h, rfl⟩
  · rintro (⟨h, rfl⟩ | ⟨name, hname, h, rfl⟩)
    · exact .foreign hv h
    · exact .dead hv hname h

theorem checkAt_eq_error_iff :
    checkAt definitions (path, o) = .error e ↔ o.BadReference definitions path e := by
  unfold checkAt checkReference
  split
  · next hnone =>
    refine iff_of_false (fun h => by cases h) fun h => ?_
    cases h with
    | notText hv | foreign hv | dead hv => rw [hnone] at hv; cases hv
  · next reference hv =>
    rw [badReference_string_iff hv, Result.bind_eq_error_iff, Schema.target_eq_error_iff]
    refine or_congr Iff.rfl (exists_congr fun name => ?_)
    rw [Schema.target_eq_ok_iff, Schema.targetName?_eq_some_iff]
    refine and_congr_right fun _ => ?_
    rw [← Fields.get?_isSome_iff]
    show (if (Fields.get? definitions name).isSome then _ else _) = _ ↔ _
    split
    · next h => exact iff_of_false (fun h => by cases h) fun hmissing => hmissing.1 h
    · next h =>
      constructor
      · intro he
        cases he
        exact ⟨h, rfl⟩
      · rintro ⟨-, rfl⟩
        rfl
  · next v hnot hv =>
    have htext : v.string? = none := by
      cases v with
      | string text => exact absurd rfl (hnot text)
      | _ => rfl
    rw [SchemaError.malformedAt_child, Pointer.child_ofTokens]
    constructor
    · intro h
      cases h
      exact .notText hv htext
    · intro h
      cases h with
      | notText => rfl
      | foreign hv' | dead hv' => rw [hv] at hv'; cases hv'; cases htext

/-- An object passes if there is nothing wrong with its reference. -/
theorem checkAt_eq_ok_iff :
    checkAt definitions (path, o) = .ok () ↔ ∀ e, ¬ o.BadReference definitions path e := by
  simp only [← checkAt_eq_error_iff]
  cases checkAt definitions (path, o) <;> simp

end Object

namespace Schema

variable {s : Schema}

/-- A reference that is there is one to some definition. -/
theorem referenceIn_true_iff {o : Object} : o.ReferenceIn (fun _ => True) ↔
    ∀ v, Fields.get? o "$ref" = some v → ∃ reference name, v = .string reference ∧
      RefersTo reference name := by
  unfold Object.ReferenceIn
  simp only [targetName?_eq_some_iff, and_true]

/-- The check passes exactly if each reference is one to a definition and the definitions in use
exist. Otherwise it fails as the first object does, in document order, whose reference is bad. -/
theorem checkReferences_firstFault :
    (s.checkReferences = .ok () ↔
      (∀ path o, (path, o) ∈ s.toNode.objects [] → ∀ v, Fields.get? o "$ref" = some v →
        ∃ reference name, v = .string reference ∧ RefersTo reference name) ∧
      ∀ name ∈ s.usedDefinitions, name ∈ Fields.keys s.definitions) ∧
    ∀ e, s.checkReferences = .error e ↔ ∃ before path, ∃ o : Object, ∃ after,
      s.toNode.objects [] = before ++ (path, o) :: after ∧
      s.toNode.at? (Pointer.ofTokens path) = some (.object o) ∧
      (∀ path', ∀ o' : Object, (path', o') ∈ before →
        ∀ e', ¬ o'.BadReference s.definitions path' e') ∧
      o.BadReference s.definitions path e := by
  constructor
  · rw [checkReferences_eq_ok_iff, @Node.everywhere_iff_objects []]
    simp only [referenceIn_true_iff, Prod.forall]
  · intro e
    have hwalk := @Node.checkReferences_eq_forM s.definitions s.toNode []
    rw [checkReferences, show "" = Pointer.ofTokens [] from rfl, hwalk, Result.forM_eq_error_iff]
    constructor
    · rintro ⟨before, ⟨path, o⟩, after, h, hbefore, ho⟩
      have hmem : (path, o) ∈ s.toNode.objects [] := by
        rw [h]
        exact List.mem_append_right _ (List.mem_cons_self ..)
      obtain ⟨rest, hpath, hrest⟩ := Node.follow_of_mem_objects s.distinct hmem
      rw [List.nil_append] at hpath
      cases hpath
      refine ⟨before, path, o, after, h, ?_, fun path' o' ho' => ?_, Object.checkAt_eq_error_iff.mp ho⟩
      · rw [Node.at?_ofTokens]
        exact hrest
      · exact Object.checkAt_eq_ok_iff.mp (hbefore _ ho')
    · rintro ⟨before, path, o, after, h, -, hbefore, ho⟩
      refine ⟨before, (path, o), after, h, fun x hx => ?_, Object.checkAt_eq_error_iff.mpr ho⟩
      exact Object.checkAt_eq_ok_iff.mpr (hbefore x.1 x.2 hx)

/-- Three references are bad. The first of them in document order is no text, but an object which
has another one. -/
def misdirected : Schema := ⟨[
  ("properties", .object [
    ("a/b", .object [("anyOf", .array [
      .object [("$ref", .string "#/$defs/A")],
      .object [("$ref", .object [("$ref", .string "other.json")])]])]),
    ("c", .object [("$ref", .string "#/$defs/Gone")])]),
  ("$defs", .object [("A", .object [])])], by decide⟩

theorem checkReferences_firstFault_misdirected :
    misdirected.checkReferences =
        .error (.malformed "/properties/a~1b/anyOf/1/$ref" .text) ∧
      ∃ before path, ∃ o : Object, ∃ after,
        misdirected.toNode.objects [] = before ++ (path, o) :: after ∧
        misdirected.toNode.at? (Pointer.ofTokens path) = some (.object o) ∧
        (∀ path', ∀ o' : Object, (path', o') ∈ before →
          ∀ e', ¬ o'.BadReference misdirected.definitions path' e') ∧
        o.BadReference misdirected.definitions path
          (.malformed "/properties/a~1b/anyOf/1/$ref" .text) := by
  have h : misdirected.checkReferences =
      .error (.malformed "/properties/a~1b/anyOf/1/$ref" .text) := rfl
  exact ⟨h, ((checkReferences_firstFault).2 _).mp h⟩

end Schema

end ConfigSchema
