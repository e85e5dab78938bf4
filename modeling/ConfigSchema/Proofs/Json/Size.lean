import ConfigSchema.Json.Node
import ConfigSchema.Proofs.Json.Fields
import Mathlib.Algebra.Order.BigOperators.Group.List
import Mathlib.Algebra.Order.Ring.Nat

/-!
# The size of a document

`n.size` counts the values in a document. The size of an object is a total over its entries, and
the lemmas on `Fields.total` say what becomes of such a total when a map changes.
-/

namespace ConfigSchema

namespace Fields

variable {α β : Type} {weight : α → Nat}

/-- The sum of the weights of all values. -/
def total (weight : α → Nat) (fs : Fields α) : Nat := (fs.map fun e => weight e.2).sum

@[simp] theorem total_nil : total weight [] = 0 := rfl

@[simp] theorem total_cons (key : String) (v : α) (fs : Fields α) :
    total weight ((key, v) :: fs) = weight v + total weight fs := rfl

theorem total_insert_le (fs : Fields α) (key : String) (v : α) :
    total weight (fs.insert key v) ≤ total weight fs + weight v := by
  induction fs with
  | nil => simp [insert]
  | cons e fs ih =>
    obtain ⟨k, w⟩ := e
    simp only [insert]
    split <;> simp only [total_cons] <;> omega

theorem total_insertAll_le (fs more : Fields α) :
    total weight (fs.insertAll more) ≤ total weight fs + total weight more := by
  induction more generalizing fs with
  | nil => exact Nat.le_refl _
  | cons e more ih =>
    obtain ⟨k, v⟩ := e
    have hrest : total weight ((fs.insert k v).insertAll more) ≤
        total weight (fs.insert k v) + total weight more := ih (fs.insert k v)
    have hfirst := @total_insert_le _ weight fs k v
    rw [total_cons]
    exact Nat.le_trans hrest (by omega)

theorem total_erase_le (fs : Fields α) (key : String) :
    total weight (fs.erase key) ≤ total weight fs :=
  (List.filter_sublist.map _).sum_le_sum fun _ _ => Nat.zero_le _

theorem total_erase_add_le {fs : Fields α} {key : String} {v : α} (h : fs.get? key = some v) :
    total weight (fs.erase key) + weight v ≤ total weight fs := by
  induction fs with
  | nil => cases h
  | cons e fs ih =>
    obtain ⟨k, w⟩ := e
    rw [get?_cons] at h
    split at h
    · next hk =>
      cases h
      have herase : erase ((k, v) :: fs) key = erase fs key := by simp [erase, hk]
      have hle := @total_erase_le _ weight fs key
      rw [herase, total_cons]
      omega
    · next hk =>
      have herase : erase ((k, w) :: fs) key = (k, w) :: erase fs key := by simp [erase, hk]
      have hle := ih h
      rw [herase, total_cons, total_cons]
      omega

theorem total_sortBy (before : String → String → Bool) (fs : Fields α) :
    total weight (fs.sortBy before) = total weight fs :=
  ((sortBy_perm before fs).map _).sum_eq

theorem total_mapValues (weight : β → Nat) (f : α → β) (fs : Fields α) :
    total weight (fs.mapValues f) = total (fun v => weight (f v)) fs := by
  simp [total, mapValues, Function.comp_def]

theorem total_mapEntries_le {f : String → α → β} {weight' : β → Nat} {fs : Fields α}
    (h : ∀ k v, (k, v) ∈ fs → weight' (f k v) ≤ weight v) :
    total weight' (mapEntries f fs) ≤ total weight fs := by
  rw [total, mapEntries, List.map_map]
  exact List.sum_le_sum fun e he => h e.1 e.2 he

end Fields

namespace Node

mutual

/-- How many values there are in a value, itself included. -/
def size : Node → Nat
  | array xs => sizeItems xs + 1
  | object fs => sizeFields fs + 1
  | _ => 1

def sizeItems : List Node → Nat
  | [] => 0
  | x :: xs => size x + sizeItems xs

def sizeFields : Object → Nat
  | [] => 0
  | (_, v) :: fs => size v + sizeFields fs

end

theorem size_array (xs : List Node) : (array xs).size = (xs.map size).sum + 1 := by
  rw [size]
  refine congrArg (· + 1) ?_
  induction xs with
  | nil => rfl
  | cons x xs ih => rw [sizeItems, ih, List.map_cons, List.sum_cons]

theorem size_object (fs : Object) : (object fs).size = Fields.total size fs + 1 := by
  rw [size]
  refine congrArg (· + 1) ?_
  induction fs with
  | nil => rfl
  | cons e fs ih => rw [sizeFields, ih, Fields.total_cons]

end Node

end ConfigSchema
