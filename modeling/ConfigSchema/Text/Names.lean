/-!
# Sets of names

A set of names is the increasing list of its members, in the order of code points.
-/

namespace ConfigSchema

namespace Names

/-- Adds a name to an increasing list, unless it is there. -/
def insert (name : String) : List String → List String
  | [] => [name]
  | x :: xs =>
    if name = x then x :: xs
    else if name < x then name :: x :: xs
    else x :: insert name xs

/-- The names of a list, each once, in increasing order. -/
def ofList (names : List String) : List String := names.foldr insert []

theorem mem_insert {name x : String} {xs : List String} :
    x ∈ insert name xs ↔ x = name ∨ x ∈ xs := by
  induction xs with
  | nil => simp [insert]
  | cons y ys ih =>
    simp only [insert]
    split
    · next h => simp [h]
    · split
      · simp
      · simp only [List.mem_cons, ih]
        exact or_left_comm

theorem mem_ofList {x : String} {names : List String} : x ∈ ofList names ↔ x ∈ names := by
  induction names with
  | nil => simp [ofList]
  | cons n names ih =>
    simp only [ofList, List.foldr_cons, mem_insert, List.mem_cons] at ih ⊢
    rw [ih]

end Names

end ConfigSchema
