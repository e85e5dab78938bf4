import ConfigSchema.Input
import ConfigSchema.Proofs.Json.Fields
import ConfigSchema.Proofs.Json.Pointer

/-!
# Selection by a pointer

`n.Leads path v` says that the keys and indices of a path lead from a document to a value in it. The
pointer made of the tokens of a path selects the value that the path leads to and nothing else, and
no two paths have the same pointer (`Selection.apply_ofTokens`).
-/

namespace ConfigSchema

namespace Node

/-- From a document to a value in it by keys of objects and indices of lists, these in decimal. -/
inductive Leads : Node → List String → Node → Prop
  | here (n : Node) : Leads n [] n
  | entry {fs : Object} {key : String} {part v : Node} {path : List String}
      (h : (key, part) ∈ fs) (hpath : Leads part path v) : Leads (.object fs) (key :: path) v
  | item {xs : List Node} {i : Nat} {part v : Node} {path : List String}
      (h : xs[i]? = some part) (hpath : Leads part path v) :
      Leads (.array xs) (toString i :: path) v

variable {n v : Node} {path : List String}

theorem Leads.follow (h : n.Leads path v) (hn : n.Distinct) : n.follow path = some v := by
  induction h with
  | here n => rfl
  | entry h _ ih =>
    have hpart := (Fields.mem_iff_get? hn.keys).mp h
    exact (congrArg (Option.bind · _) hpart).trans (ih (hn.entry h))
  | item h _ ih =>
    have hpart := child?_index.trans h
    exact (congrArg (Option.bind · _) hpart).trans (ih (hn.item (List.mem_of_getElem? h)))

theorem leads_of_follow (h : n.follow path = some v) : n.Leads path v := by
  induction path generalizing n with
  | nil =>
    cases h
    exact .here _
  | cons token path ih =>
    obtain ⟨part, hchild, hrest⟩ := Option.bind_eq_some_iff.mp h
    cases n with
    | object fs => exact .entry (Fields.mem_of_get? hchild) (ih hrest)
    | array xs =>
      obtain ⟨i, hi, hpart⟩ := Option.bind_eq_some_iff.mp hchild
      obtain rfl := Pointer.index?_eq_some_iff.mp hi
      exact .item hpart (ih hrest)
    | _ => cases hchild

theorem follow_eq_some_iff (hn : n.Distinct) : n.follow path = some v ↔ n.Leads path v :=
  ⟨leads_of_follow, fun h => h.follow hn⟩

end Node

namespace Selection

variable {engine : Filter.Engine} {document : Node}

theorem apply_pointer_eq_ok_iff {pointer : String} {v : Node} :
    apply engine ⟨none, some pointer⟩ document = .ok v ↔ document.at? pointer = some v := by
  show followed ⟨none, some pointer⟩ document = .ok v ↔ _
  unfold followed
  dsimp only
  cases document.at? pointer <;> simp

/-- The pointer made of the tokens of a path selects what the path leads to. Different paths have
different pointers. -/
theorem apply_ofTokens (hn : document.Distinct) (path : List String) :
    (∀ engine v, apply engine ⟨none, some (Pointer.ofTokens path)⟩ document = .ok v ↔
      document.Leads path v) ∧
      ∀ path', Pointer.ofTokens path = Pointer.ofTokens path' ↔ path = path' := by
  refine ⟨fun engine v => ?_, fun _ => Pointer.ofTokens_inj⟩
  rw [apply_pointer_eq_ok_iff, Node.at?_ofTokens, Node.follow_eq_some_iff hn]

/-- Keys that are empty, that have the characters of an escape in them, or that look like an
index. -/
def maze : Node := .object [
  ("", .object [("~01/", .array [.null, .object [("1", .string "one"), ("01", .null)]])]),
  ("/~1", .bool false)]

theorem apply_ofTokens_maze :
    maze.Distinct ∧ maze.Leads ["", "~01/", "1", "1"] (.string "one") ∧
      Pointer.ofTokens ["", "~01/", "1", "1"] = "//~001~1/1/1" ∧
      (∀ engine, apply engine ⟨none, some "//~001~1/1/1"⟩ maze = .ok (.string "one")) ∧
      Pointer.ofTokens ["/~1"] ≠ Pointer.ofTokens ["", "~1"] := by
  have hn : maze.Distinct := by decide
  have hpath : maze.Leads ["", "~01/", "1", "1"] (.string "one") :=
    .entry List.mem_cons_self <| .entry List.mem_cons_self <| @Node.Leads.item _ 1 _ _ _ rfl <|
      .entry List.mem_cons_self (.here _)
  refine ⟨hn, hpath, by decide, ?_, ?_⟩
  · exact fun engine => ((apply_ofTokens hn ["", "~01/", "1", "1"]).1 engine _).mpr hpath
  · exact mt ((apply_ofTokens hn ["/~1"]).2 _).mp (by decide)

end Selection

end ConfigSchema
