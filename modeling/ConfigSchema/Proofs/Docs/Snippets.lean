import ConfigSchema.Docs.Snippet
import ConfigSchema.Proofs.Json.Fields
import ConfigSchema.Proofs.Schema.Keywords
import ConfigSchema.Proofs.Toml.Literal

/-!
# What the snippets tell apart

The text of an assignment tells its value, as literals are unambiguous; two examples of a field have
the same assignment only if the field holds lists and one of them is the list of just the other
(`text_assignment_eq_iff`). The entries of examples that are merged are shown as text, and there a
string cannot be told from a value that has the string as its literal (`display_eq_iff`).
-/

namespace ConfigSchema

variable {v w : Node} {table key : String}

namespace Toml

/-- The string that spells the literal of a value, which is no string itself. -/
def IsTextOf (v w : Node) : Prop := v = .string (literal w) ∧ w.string? = none

theorem display_eq_iff : display v = display w ↔ v = w ∨ IsTextOf v w ∨ IsTextOf w v := by
  cases v <;> cases w <;> simp [display, IsTextOf, literal_inj, Node.string?, eq_comm]

end Toml

namespace Snippet

theorem text_singleton_inj :
    text ⟨table, [(key, v)]⟩ = text ⟨table, [(key, w)]⟩ ↔ v = w := by
  simp only [text, List.map_cons, List.map_nil, String.intercalate_singleton,
    String.append_right_inj, String.append_left_inj, Toml.literal_inj]

/-- The list of just one value, which is no list itself. -/
def IsListOf (v w : Node) : Prop := v = .array [w] ∧ w.array? = none

theorem asList_eq_iff : asList v = asList w ↔ v = w ∨ IsListOf v w ∨ IsListOf w v := by
  cases v <;> cases w <;> simp [asList, IsListOf, Node.array?, eq_comm]

theorem exists_of_mem_merge {tables : List Object} {e : String × Node} (h : e ∈ merge tables) :
    ∃ o ∈ tables, e ∈ o := by
  suffices ∀ merged : Object, e ∈ tables.foldl Fields.insertAll merged →
      e ∈ merged ∨ ∃ o ∈ tables, e ∈ o from (this [] h).resolve_left List.not_mem_nil
  clear h
  induction tables with
  | nil => exact fun merged h => .inl h
  | cons o tables ih =>
    intro merged h
    obtain h | ⟨o', ho', h⟩ := ih _ h
    · exact (Fields.mem_of_mem_insertAll h).imp_right fun h => ⟨o, List.mem_cons_self, h⟩
    · exact .inr ⟨o', List.mem_cons_of_mem o ho', h⟩

end Snippet

namespace Object

variable {field : Object}

/-- The assignment of one example to the field, which is called `key` in `table`. -/
def assignment (field : Object) (table key : String) (n : Node) : Snippet :=
  ⟨table, [(key, if field.holdsLists then Snippet.asList n else n)]⟩

theorem text_assignment_eq_iff :
    (field.assignment table key v).text = (field.assignment table key w).text ↔
      v = w ∨ field.holdsLists = true ∧ (Snippet.IsListOf v w ∨ Snippet.IsListOf w v) := by
  rw [assignment, assignment, Snippet.text_singleton_inj]
  cases field.holdsLists with
  | false => simp
  | true => simp [Snippet.asList_eq_iff]

theorem snippets_eq_map_assignment (h : ¬ ∀ n ∈ field.examples, n.object?.isSome = true) :
    field.snippets table key =
      (field.examples.filter fun n => !n.isNull).map (field.assignment table key) := by
  have hall := mt List.all_eq_true.mp h
  by_cases hnone : field.examples.isEmpty = true
  · rw [snippets, if_pos hnone, List.isEmpty_iff.mp hnone]
    rfl
  · rw [snippets, if_neg hnone, if_neg hall]
    rfl

theorem snippets_of_mixed (h : ∃ n ∈ field.examples, n.object? = none) :
    field.snippets table key =
      (field.examples.filter fun n => !n.isNull).map (field.assignment table key) := by
  obtain ⟨n, hn, hnone⟩ := h
  refine snippets_eq_map_assignment fun hall => ?_
  have hsome := hall n hn
  rw [hnone] at hsome
  cases hsome

/-- The assignments of merged examples show their entries. -/
theorem exists_entry_of_mem_snippets (h : ∀ n ∈ field.examples, n.object?.isSome = true)
    {snippet : Snippet} (hsnippet : snippet ∈ field.snippets table key) {e : String × Node}
    (he : e ∈ snippet.assignments) : ∃ (o : Object) (v : Node),
      .object o ∈ field.examples ∧ (e.1, v) ∈ o ∧ e.2 = .string (Toml.display v) := by
  unfold snippets at hsnippet
  by_cases hnone : field.examples.isEmpty = true
  · rw [if_pos hnone] at hsnippet
    cases hsnippet
  · rw [if_neg hnone, if_pos (List.all_eq_true.mpr h)] at hsnippet
    obtain rfl := List.mem_singleton.mp hsnippet
    obtain ⟨⟨k, v⟩, hv, rfl⟩ := List.mem_map.mp he
    obtain ⟨o, ho, hv⟩ := Snippet.exists_of_mem_merge hv
    obtain ⟨n, hn, ho⟩ := List.mem_filterMap.mp ho
    exact ⟨o, v, Node.object?_eq_some_iff.mp ho ▸ hn, hv, rfl⟩

/-- A literal belongs to one value only. An example can be told from its snippet, unless it is in a
field that holds lists and might be the list or the only member of it; where examples are merged, a
string in them may also be the value that it spells. -/
theorem snippets_unambiguous (field : Object) (table key : String) :
    (∀ v w, Toml.literal v = Toml.literal w ↔ v = w) ∧
    ((∃ n ∈ field.examples, n.object? = none) ∧
        field.snippets table key =
          (field.examples.filter fun n => !n.isNull).map (field.assignment table key) ∨
      (∀ n ∈ field.examples, n.object?.isSome = true) ∧
        ∀ snippet ∈ field.snippets table key, ∀ e ∈ snippet.assignments, ∃ (o : Object) (v : Node),
          .object o ∈ field.examples ∧ (e.1, v) ∈ o ∧ e.2 = .string (Toml.display v)) ∧
    (∀ v w, (field.assignment table key v).text = (field.assignment table key w).text ↔
      v = w ∨ field.holdsLists = true ∧ (Snippet.IsListOf v w ∨ Snippet.IsListOf w v)) ∧
    ∀ v w, Toml.literal (.string (Toml.display v)) = Toml.literal (.string (Toml.display w)) ↔
      v = w ∨ Toml.IsTextOf v w ∨ Toml.IsTextOf w v := by
  refine ⟨fun v w => Toml.literal_inj, ?_, fun v w => text_assignment_eq_iff, fun v w => ?_⟩
  · by_cases h : ∀ n ∈ field.examples, n.object?.isSome = true
    · exact .inr ⟨h, fun _ hsnippet _ he => exists_entry_of_mem_snippets h hsnippet he⟩
    · exact .inl ⟨by simpa using h, snippets_eq_map_assignment h⟩
  · rw [Toml.literal_inj, Node.string.injEq, Toml.display_eq_iff]

/-- A field that holds lists, with an example that is a list and one that is its only member. -/
def platforms : Object :=
  [("type", .string "array"),
    ("examples", .array [.string "linux-64", .array [.string "linux-64"]])]

/-- Different examples of a field may have the same snippet. -/
theorem not_nodup_snippets : ¬ ∀ (field : Object) (table key : String), field.examples.Nodup →
    ((field.snippets table key).map Snippet.text).Nodup := by
  intro h
  have hsnippets : platforms.snippets "w" "platforms" =
      [⟨"w", [("platforms", .array [.string "linux-64"])]⟩,
        ⟨"w", [("platforms", .array [.string "linux-64"])]⟩] := by
    with_unfolding_all rfl
  have hexamples : platforms.examples = [.string "linux-64", .array [.string "linux-64"]] := rfl
  have hnodup := h platforms "w" "platforms" (by rw [hexamples]; simp)
  rw [hsnippets] at hnodup
  exact (List.nodup_cons.mp hnodup).1 (List.mem_cons_self ..)

end Object

end ConfigSchema
