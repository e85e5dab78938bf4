import ConfigSchema.Proofs.Docs.Label
import ConfigSchema.Proofs.Docs.Snippets

/-!
# Fields that hold lists

A field whose label is made of lists (`Label.IsLists`) should show its examples as lists
(`Object.listSnippets`). It does if the label is that of its own type. If the label is that of
options, the examples are wrapped only if the field names the type `array` besides, or if the
options are those of `anyOf` and one of them has that name as its whole type: the options of
`oneOf`, those that may also be null in the same list of names and those that have options again are
not looked at (`Object.snippets_of_isLists`).
-/

namespace ConfigSchema

/-- A list, or options that are all lists. -/
inductive Label.IsLists : Label → Prop
  | list (item : Label) : IsLists (.list item)
  | options {labels : List Label} (hne : labels ≠ []) (h : ∀ l ∈ labels, IsLists l) :
    IsLists (.options labels)

theorem Snippet.asList_eq_self_iff {n : Node} : asList n = n ↔ n.array?.isSome = true := by
  cases n <;> simp [asList, Node.array?]

namespace Object

variable {s : Schema} {field : Object} {l : Label} {table key : String}

theorem reference?_of_isLists (h : field.label s = .ok l) (hl : l.IsLists) :
    field.reference? = none := by
  cases href : field.reference? with
  | none => rfl
  | some reference =>
    rw [label_of_reference href] at h
    obtain ⟨r, -, rfl⟩ := Result.map_eq_ok_iff.mp h
    cases hl

theorem namesLabel_of_isLists {names : List String} {item? : Option (Except SchemaError Label)}
    (h : namesLabel names item? = .ok l) (hl : l.IsLists) : names = ["array"] := by
  unfold namesLabel at h
  split at h
  · cases h
    cases hl
  · rfl
  · cases h
    cases hl

/-- A list that is no option is a list by the type of the field. -/
theorem array_mem_typeNames (h : field.label s = .ok l) (hl : l.IsLists)
    (hoptions : field.typeOptions = []) : "array" ∈ field.typeNames := by
  rw [label_of_names (reference?_of_isLists h hl) hoptions] at h
  have hnames := namesLabel_of_isLists h hl
  have hmem : "array" ∈ field.realNames := hnames ▸ List.mem_singleton_self _
  exact List.mem_of_mem_filter hmem

theorem mem_typeOptions_iff_of_array {option : Object} (h : option.typeName? = some "array") :
    option ∈ field.typeOptions ↔ option ∈ field.variants field.unionKey := by
  have hnull : option.isNullType = false := by
    rw [isNullType, h]
    decide
  rw [typeOptions, List.mem_filter, hnull]
  exact and_iff_left rfl

theorem unionKey_eq_anyOf_iff : field.unionKey = "anyOf" ↔ field.variants "anyOf" ≠ [] := by
  rw [unionKey]
  split_ifs with hempty
  · simpa using hempty
  · simpa using hempty

/-- A field is said to hold lists by its type, or by an option that its label is made of. -/
theorem holdsLists_iff : field.holdsLists = true ↔ "array" ∈ field.typeNames ∨
    field.unionKey = "anyOf" ∧ ∃ option ∈ field.typeOptions, option.typeName? = some "array" := by
  rw [holdsLists, Bool.or_eq_true, List.contains_iff_mem, List.any_eq_true]
  refine or_congr_right ⟨?_, ?_⟩
  · rintro ⟨option, hoption, harray⟩
    have harray := eq_of_beq harray
    have hunion := unionKey_eq_anyOf_iff.mpr (List.ne_nil_of_mem hoption)
    exact ⟨hunion, option, (mem_typeOptions_iff_of_array harray).mpr (hunion ▸ hoption), harray⟩
  · rintro ⟨hunion, option, hoption, harray⟩
    have hoption := (mem_typeOptions_iff_of_array harray).mp hoption
    exact ⟨option, hunion ▸ hoption, beq_iff_eq.mpr harray⟩

/-- The examples of a field, called `key` in `table`, with lists as they are and everything else but
null as the only item of a list. -/
def listSnippets (field : Object) (table key : String) : List Snippet :=
  (field.examples.filter fun n => !n.isNull).map fun n => ⟨table, [(key, Snippet.asList n)]⟩

theorem assignment_eq_iff {n : Node} : field.assignment table key n =
    ⟨table, [(key, Snippet.asList n)]⟩ ↔ field.holdsLists = true ∨ n.array?.isSome = true := by
  rw [assignment, ← Snippet.asList_eq_self_iff]
  cases field.holdsLists <;> simp [eq_comm]

theorem snippets_eq_listSnippets_iff (hmixed : ∃ n ∈ field.examples, n.object? = none) :
    field.snippets table key = field.listSnippets table key ↔ field.holdsLists = true ∨
      ∀ n ∈ field.examples, n.isNull = true ∨ n.array?.isSome = true := by
  rw [snippets_of_mixed hmixed, listSnippets, List.map_inj_left]
  simp only [assignment_eq_iff, List.mem_filter, Bool.not_eq_eq_eq_not, Bool.not_true, and_imp]
  cases field.holdsLists with
  | true => simp
  | false => simp [Decidable.or_iff_not_imp_left]

/-- A field that is a list by its own type shows its examples as lists. One whose options are all
lists does so exactly if it names the type besides, if its options are those of `anyOf` and one is
written with just the name of the type, or if no example has to be wrapped. -/
theorem snippets_of_isLists (h : field.label s = .ok l) (hl : l.IsLists)
    (hmixed : ∃ n ∈ field.examples, n.object? = none) (table key : String) :
    (field.typeOptions = [] → field.snippets table key = field.listSnippets table key) ∧
    (field.snippets table key = field.listSnippets table key ↔ "array" ∈ field.typeNames ∨
      (field.unionKey = "anyOf" ∧ ∃ option ∈ field.typeOptions, option.typeName? = some "array") ∨
        ∀ n ∈ field.examples, n.isNull = true ∨ n.array?.isSome = true) := by
  have hiff := @snippets_eq_listSnippets_iff field table key hmixed
  rw [holdsLists_iff, or_assoc] at hiff
  exact ⟨fun hoptions => hiff.mpr (.inl (array_mem_typeNames h hl hoptions)), hiff⟩

/-- A list of texts or null. -/
def optionalList (union : String) : Object := [
  (union, .array [
    .object [("type", .string "array"), ("items", .object [("type", .string "string")])],
    .object [("type", .string "null")]]),
  ("examples", .array [.string "a", .null, .array [.string "b"]])]

theorem label_optionalList :
    (optionalList "anyOf").label .empty = .ok (.options [.list (.names ["string"])]) ∧
      (optionalList "oneOf").label .empty = .ok (.options [.list (.names ["string"])]) := by
  with_unfolding_all exact ⟨rfl, rfl⟩

theorem isLists_strings : (Label.options [.list (.names ["string"])]).IsLists :=
  .options (List.cons_ne_nil _ _) (by simpa using .list _)

theorem snippets_of_isLists_optionalList :
    (optionalList "anyOf").label .empty = .ok (.options [.list (.names ["string"])]) ∧
      (∃ n ∈ (optionalList "anyOf").examples, n.object? = none) ∧
      (optionalList "anyOf").snippets "w" "p" = (optionalList "anyOf").listSnippets "w" "p" ∧
      (optionalList "anyOf").listSnippets "w" "p" = [⟨"w", [("p", .array [.string "a"])]⟩,
        ⟨"w", [("p", .array [.string "b"])]⟩] := by
  have hmixed : ∃ n ∈ (optionalList "anyOf").examples, n.object? = none :=
    ⟨.string "a", List.mem_cons_self, rfl⟩
  refine ⟨label_optionalList.1, hmixed, ?_, by with_unfolding_all rfl⟩
  refine (snippets_of_isLists label_optionalList.1 isLists_strings hmixed "w" "p").2.mpr ?_
  exact .inr (.inl ⟨rfl, _, List.mem_cons_self, rfl⟩)

/-- The options of a `oneOf` may all be lists, and an example is no list. -/
theorem not_snippets_of_isLists : ¬ ∀ (s : Schema) (field : Object) (l : Label)
    (table key : String), field.label s = .ok l → l.IsLists →
    (∃ n ∈ field.examples, n.object? = none) →
    field.snippets table key = field.listSnippets table key := by
  intro h
  have hmixed : ∃ n ∈ (optionalList "oneOf").examples, n.object? = none :=
    ⟨.string "a", List.mem_cons_self, rfl⟩
  have hsnippets := h .empty (optionalList "oneOf") _ "w" "p" label_optionalList.2 isLists_strings
    hmixed
  obtain hlists | hexamples := (snippets_eq_listSnippets_iff hmixed).mp hsnippets
  · cases hlists
  · obtain hnull | hlist := hexamples _ List.mem_cons_self
    · cases hnull
    · cases hlist

end Object

end ConfigSchema
