import ConfigSchema.Proofs.Docs.Lines
import ConfigSchema.Proofs.Docs.Snippets

/-!
# Every example is shown

Examples that are all objects are merged into one snippet. `Snippet.Merges` says what such a merge
of tables is: every key of the tables is there once, where it first comes up, with the value of the
last table that has it. Other examples have a snippet each, unless they are null. What the texts of
the snippets show is read from their lines (`Snippet.Shows`): the entries of the merge, or the
assignment of the one example. So examples are neither lost nor shown twice
(`Object.snippets_complete`).
-/

namespace ConfigSchema

namespace Snippet

variable {tables : List Object} {k : String} {v : Node}

/-- `merged` has each key of the tables at the place where it first comes up, with the value of the
last table that has the key. -/
structure Merges (tables : List Object) (merged : Object) : Prop where
  keys : Fields.keys merged = (tables.flatMap Fields.keys).eraseDups
  entries : ∀ k v, (k, v) ∈ merged ↔ ∃ before o after, tables = before ++ o :: after ∧
    (k, v) ∈ o ∧ ∀ p ∈ after, k ∉ Fields.keys p

theorem merge_eq_ofList (tables : List Object) : merge tables = Fields.ofList tables.flatten := by
  rw [merge, Fields.ofList, Fields.insertAll, List.foldl_flatten]
  rfl

theorem keys_merge (tables : List Object) :
    Fields.keys (merge tables) = (tables.flatMap Fields.keys).eraseDups := by
  rw [merge_eq_ofList, Fields.keys_ofList, Fields.keys, List.map_flatten]
  rfl

theorem get?_reverse_flatten_eq_none_iff :
    Fields.get? tables.flatten.reverse k = none ↔ ∀ o ∈ tables, k ∉ Fields.keys o := by
  rw [Fields.get?_eq_none_iff, Fields.keys, List.map_reverse, List.mem_reverse, List.map_flatten,
    ← List.flatMap_def]
  simp [Fields.keys]

theorem mem_merge_iff (htables : ∀ o ∈ tables, Fields.Distinct o) : (k, v) ∈ merge tables ↔
    ∃ before o after, tables = before ++ o :: after ∧ (k, v) ∈ o ∧
      ∀ p ∈ after, k ∉ Fields.keys p := by
  rw [merge_eq_ofList, Fields.mem_iff_get? (Fields.distinct_ofList _), Fields.get?_ofList]
  induction tables with
  | nil => simp
  | cons o tables ih =>
    obtain ⟨ho, htables⟩ := List.forall_mem_cons.mp htables
    -- the value of a later table counts, and the first table is asked only if there is none
    rw [List.flatten_cons, List.reverse_append, Fields.get?_append, Option.or_eq_some_iff,
      ih htables, get?_reverse_flatten_eq_none_iff, Fields.get?_reverse ho,
      ← Fields.mem_iff_get? ho]
    constructor
    · rintro (⟨before, o', after, rfl, hv, hafter⟩ | ⟨hafter, hv⟩)
      · exact ⟨o :: before, o', after, rfl, hv, hafter⟩
      · exact ⟨[], o, tables, rfl, hv, hafter⟩
    · rintro ⟨before, o', after, h, hv, hafter⟩
      obtain ⟨rfl, h⟩ | ⟨before', rfl, rfl⟩ := List.cons_eq_append_iff.mp h
      · cases h
        exact .inr ⟨hafter, hv⟩
      · exact .inl ⟨before', o', after, rfl, hv, hafter⟩

theorem merges_merge (htables : ∀ o ∈ tables, Fields.Distinct o) : Merges tables (merge tables) :=
  ⟨keys_merge tables, fun _ _ => mem_merge_iff htables⟩

end Snippet

namespace Object

variable {field : Object} {tables : List Object} {table key : String}

theorem distinct_of_mem_items (hfield : (Node.object field).Distinct) {n : Node}
    (hn : n ∈ field.items key) : n.Distinct := by
  obtain ⟨xs, hxs, hn⟩ := mem_items_iff.mp hn
  exact (hfield.get? hxs).item hn

theorem snippets_of_objects (hne : field.examples ≠ []) (h : field.examples = tables.map .object) :
    field.snippets table key =
      [⟨table, (Snippet.merge tables).mapValues fun v => .string (Toml.display v)⟩] := by
  have hobjects : (tables.map Node.object).filterMap Node.object? = tables := by
    rw [List.filterMap_map]
    exact List.filterMap_some
  have hall : ((tables.map Node.object).all fun n => n.object?.isSome) = true := by
    simp [Node.object?]
  rw [snippets, if_neg (by simpa using hne), h, if_pos hall, hobjects]

/-- Examples that are all objects have one snippet, whose text shows the entries of all of them.
Otherwise every example that is not null has a snippet of its own, in the same order, whose text
shows the assignment of just this example. -/
theorem snippets_complete (hfield : (Node.object field).Distinct) (hne : field.examples ≠ [])
    (table key : String) :
    (∀ tables : List Object, field.examples = tables.map .object →
      ∃ (merged : Object) (text : String), Snippet.Merges tables merged ∧
        (field.snippets table key).map Snippet.text = [text] ∧
        ∀ assignments, Snippet.Shows text table assignments ↔
          assignments = merged.mapValues fun v => .string (Toml.display v)) ∧
    ((∃ n ∈ field.examples, n.object? = none) →
      List.Forall₂ (fun n text => ∀ assignments, Snippet.Shows text table assignments ↔
          assignments = [(key, if field.holdsLists then Snippet.asList n else n)])
        (field.examples.filter fun n => !n.isNull)
        ((field.snippets table key).map Snippet.text)) := by
  constructor
  · intro tables h
    have htables : ∀ o ∈ tables, Fields.Distinct o := by
      intro o ho
      have hmem : .object o ∈ field.examples := h ▸ List.mem_map_of_mem ho
      exact (distinct_of_mem_items hfield hmem).keys
    refine ⟨_, _, Snippet.merges_merge htables, ?_, fun _ => Snippet.shows_text_iff⟩
    rw [snippets_of_objects hne h, List.map_singleton]
  · intro hmixed
    rw [snippets_of_mixed hmixed, List.map_map, List.forall₂_map_right_iff, List.forall₂_same]
    intro n _ assignments
    exact Snippet.shows_text_iff

/-- Examples of settings: two have the same key, one is empty. -/
def settings : Object := [("examples", .array [
  .object [("path", .string "bin"), ("debug", .bool true)],
  .object [],
  .object [("lang", .null), ("path", .array [])]])]

/-- Examples of a version, one of which is an object. -/
def versions : Object := [("examples", .array [
  .string "1.0", .null, .object [("version", .string "1.0")], .string "1.0"])]

theorem snippets_complete_settings :
    (Node.object settings).Distinct ∧ settings.examples ≠ [] ∧
      (settings.snippets "task" "env").map Snippet.text =
        ["```toml\n[task]\npath = \"[]\"\ndebug = \"true\"\nlang = \"null\"\n```"] ∧
      (∃ (merged : Object) (text : String), Snippet.Merges
          [[("path", .string "bin"), ("debug", .bool true)], [],
            [("lang", .null), ("path", .array [])]] merged ∧
        (settings.snippets "task" "env").map Snippet.text = [text] ∧
        ∀ assignments, Snippet.Shows text "task" assignments ↔
          assignments = merged.mapValues fun v => .string (Toml.display v)) ∧
      (Node.object versions).Distinct ∧ versions.examples ≠ [] ∧
      (versions.snippets "task" "version").map Snippet.text =
        ["```toml\n[task]\nversion = \"1.0\"\n```",
          "```toml\n[task]\nversion = \x7b version = \"1.0\" \x7d\n```",
          "```toml\n[task]\nversion = \"1.0\"\n```"] ∧
      List.Forall₂ (fun n text => ∀ assignments, Snippet.Shows text "task" assignments ↔
          assignments = [("version", if versions.holdsLists then Snippet.asList n else n)])
        (versions.examples.filter fun n => !n.isNull)
        ((versions.snippets "task" "version").map Snippet.text) := by
  have hsettings : (Node.object settings).Distinct := by decide
  have hversions : (Node.object versions).Distinct := by decide
  have hne : settings.examples ≠ [] := nofun
  have hne' : versions.examples ≠ [] := nofun
  refine ⟨hsettings, hne, by with_unfolding_all rfl, ?_, hversions, hne',
    by with_unfolding_all rfl, ?_⟩
  · exact (snippets_complete hsettings hne "task" "env").1 _ rfl
  · exact (snippets_complete hversions hne' "task" "version").2
      ⟨.string "1.0", List.mem_cons_self, rfl⟩

end Object

end ConfigSchema
