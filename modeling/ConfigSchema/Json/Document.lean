import ConfigSchema.Json.Node

/-!
# Documents and the objects in them

`Node.induct` is the induction on documents that the other proofs use: it goes from the items of a
list and the entries of an object to the list and the object. `n.Everywhere Q` says that `Q` holds
of all objects in a document, and `Node.Distinct` that none of them has a key twice, which makes
each of them a finite function. Whatever is read from a text is distinct, and a `Schema` is.
-/

namespace ConfigSchema

namespace Node

@[elab_as_elim]
theorem induct {motive : Node → Prop}
    (scalar : ∀ n, n.object? = none → n.array? = none → motive n)
    (array : ∀ xs, (∀ x ∈ xs, motive x) → motive (.array xs))
    (object : ∀ fs : Object, (∀ k v, (k, v) ∈ fs → motive v) → motive (.object fs)) (n : Node) :
    motive n := by
  refine @Node.rec motive (fun xs => ∀ x ∈ xs, motive x) (fun fs => ∀ k v, (k, v) ∈ fs → motive v)
    (fun e => motive e.2) (scalar _ rfl rfl) (fun _ => scalar _ rfl rfl)
    (fun _ => scalar _ rfl rfl) (fun _ => scalar _ rfl rfl) array object ?_ ?_ ?_ ?_
    (fun _ _ h => h) n
  · intro x hx; cases hx
  · intro x xs hx hxs y hy
    rcases List.mem_cons.mp hy with rfl | hy
    · exact hx
    · exact hxs y hy
  · intro k v hv; cases hv
  · intro e fs he hfs
    exact Fields.forall_mem_cons.mpr ⟨he, hfs⟩

mutual

/-- `Q` holds of every object in the value. -/
def Everywhere (Q : Object → Prop) : Node → Prop
  | object fs => Q fs ∧ EverywhereFields Q fs
  | array xs => EverywhereItems Q xs
  | _ => True

def EverywhereItems (Q : Object → Prop) : List Node → Prop
  | [] => True
  | x :: xs => x.Everywhere Q ∧ EverywhereItems Q xs

def EverywhereFields (Q : Object → Prop) : Object → Prop
  | [] => True
  | (_, v) :: fs => v.Everywhere Q ∧ EverywhereFields Q fs

end

section

variable {Q : Object → Prop}

theorem everywhere_array {xs : List Node} :
    (array xs).Everywhere Q ↔ ∀ x ∈ xs, x.Everywhere Q := by
  rw [Everywhere]
  induction xs with
  | nil => simp [EverywhereItems]
  | cons x xs ih => simp [EverywhereItems, ih]

theorem everywhere_object {fs : Object} :
    (object fs).Everywhere Q ↔ Q fs ∧ ∀ k v, (k, v) ∈ fs → v.Everywhere Q := by
  rw [Everywhere]
  refine and_congr Iff.rfl ?_
  induction fs with
  | nil => simp [EverywhereFields]
  | cons e fs ih => rw [EverywhereFields, ih, Fields.forall_mem_cons]

theorem everywhere_scalar {n : Node} (ho : n.object? = none) (ha : n.array? = none) :
    n.Everywhere Q := by
  cases n with
  | object => cases ho
  | array => cases ha
  | _ => trivial

theorem Everywhere.entry {fs : Object} (h : (object fs).Everywhere Q) {k : String} {v : Node}
    (hv : (k, v) ∈ fs) : v.Everywhere Q :=
  (everywhere_object.mp h).2 k v hv

theorem Everywhere.item {xs : List Node} (h : (array xs).Everywhere Q) {x : Node} (hx : x ∈ xs) :
    x.Everywhere Q :=
  everywhere_array.mp h x hx

theorem Everywhere.imp₂ {P R : Object → Prop} (hPQ : ∀ o, P o → Q o → R o) {n : Node}
    (hp : n.Everywhere P) (hq : n.Everywhere Q) : n.Everywhere R := by
  induction n using Node.induct with
  | scalar n ho ha => exact everywhere_scalar ho ha
  | array xs ih => exact everywhere_array.mpr fun x hx => ih x hx (hp.item hx) (hq.item hx)
  | object fs ih =>
    refine everywhere_object.mpr ⟨?_, fun k v hv => ih k v hv (hp.entry hv) (hq.entry hv)⟩
    exact hPQ fs (everywhere_object.mp hp).1 (everywhere_object.mp hq).1

theorem Everywhere.mono {P : Object → Prop} (hPQ : ∀ o, P o → Q o) {n : Node}
    (hp : n.Everywhere P) : n.Everywhere Q :=
  hp.imp₂ (fun o h _ => hPQ o h) hp

variable [DecidablePred Q]

mutual

def decideEverywhere : (n : Node) → Decidable (n.Everywhere Q)
  | object fs =>
    have := decideEverywhereFields fs
    inferInstanceAs (Decidable (Q fs ∧ EverywhereFields Q fs))
  | array xs => decideEverywhereItems xs
  | null | bool _ | number _ | string _ => isTrue trivial

def decideEverywhereItems : (xs : List Node) → Decidable (EverywhereItems Q xs)
  | [] => isTrue trivial
  | x :: xs =>
    have := decideEverywhere x
    have := decideEverywhereItems xs
    inferInstanceAs (Decidable (x.Everywhere Q ∧ EverywhereItems Q xs))

def decideEverywhereFields : (fs : Object) → Decidable (EverywhereFields Q fs)
  | [] => isTrue trivial
  | (_, v) :: fs =>
    have := decideEverywhere v
    have := decideEverywhereFields fs
    inferInstanceAs (Decidable (v.Everywhere Q ∧ EverywhereFields Q fs))

end

instance (n : Node) : Decidable (n.Everywhere Q) := decideEverywhere n

end

/-! ### Distinct keys -/

/-- No object in the value has a key twice. -/
def Distinct (n : Node) : Prop := n.Everywhere Fields.Distinct

instance : DecidablePred Distinct :=
  fun n => inferInstanceAs (Decidable (n.Everywhere Fields.Distinct))

theorem distinct_nil : (object []).Distinct :=
  everywhere_object.mpr ⟨List.nodup_nil, fun _ _ hv => by cases hv⟩

namespace Distinct

variable {fs : Object} {xs : List Node}

theorem keys (h : (object fs).Distinct) : Fields.Distinct fs := (everywhere_object.mp h).1

theorem entry (h : (object fs).Distinct) {k : String} {v : Node} (hv : (k, v) ∈ fs) : v.Distinct :=
  Everywhere.entry h hv

theorem item (h : (array xs).Distinct) {x : Node} (hx : x ∈ xs) : x.Distinct :=
  Everywhere.item h hx

theorem get? (h : (object fs).Distinct) {k : String} {v : Node} (hv : Fields.get? fs k = some v) :
    v.Distinct :=
  h.entry (Fields.mem_of_get? hv)

theorem insert (h : (object fs).Distinct) (key : String) {v : Node} (hv : v.Distinct) :
    (object (Fields.insert fs key v)).Distinct := by
  refine everywhere_object.mpr ⟨h.keys.insert key v, fun k w hw => ?_⟩
  rcases Fields.mem_of_mem_insert hw with hw | hw
  · exact h.entry hw
  · cases hw; exact hv

theorem erase (h : (object fs).Distinct) (key : String) : (object (Fields.erase fs key)).Distinct :=
  everywhere_object.mpr ⟨h.keys.erase key, fun _ _ hv => h.entry (Fields.mem_of_mem_erase hv)⟩

theorem string (s : String) : (Node.string s).Distinct := trivial

end Distinct

end Node

end ConfigSchema
