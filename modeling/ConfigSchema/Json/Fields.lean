/-!
# Ordered maps with text keys

`Fields α` is an object's entries in the order they were written. `get?` reads the first entry of
a key; `insert` replaces it in place or appends a new one, and `erase` keeps the order of the rest,
so the position of a key is where it was first inserted. `sortBy` is stable, and gives the same
entries in an order that its relation allows. `Distinct` says that no key occurs twice: `ofList`
establishes it and every operation here keeps it, and then `get?` sees only which entries there are.
-/

namespace ConfigSchema

/-- The entries of an object, in order. -/
abbrev Fields (α : Type) := List (String × α)

namespace Fields

variable {α β ε : Type}

def keys (fs : Fields α) : List String := fs.map Prod.fst

def Distinct (fs : Fields α) : Prop := fs.keys.Nodup

def get? : Fields α → String → Option α
  | [], _ => none
  | (k, v) :: rest, key => if k = key then some v else get? rest key

def contains (fs : Fields α) (key : String) : Bool := (fs.get? key).isSome

/-- Replaces the value under `key` where it stands, or appends a new entry. -/
def insert : Fields α → String → α → Fields α
  | [], key, v => [(key, v)]
  | (k, old) :: rest, key, v => if k = key then (k, v) :: rest else (k, old) :: insert rest key v

/-- Removes `key`; the rest keeps its order. -/
def erase (fs : Fields α) (key : String) : Fields α := fs.filter fun e => e.1 ≠ key

/-- Inserts the entries of `more`, one after the other. -/
def insertAll (fs more : Fields α) : Fields α := more.foldl (fun acc e => acc.insert e.1 e.2) fs

/-- The map with these entries: of several under one key the last value counts, at the place of the
first. -/
def ofList (entries : Fields α) : Fields α := insertAll [] entries

def mapValues (f : α → β) (fs : Fields α) : Fields β := fs.map fun e => (e.1, f e.2)

/-- All values, or the first failure in order. -/
def gather : Fields (Except ε α) → Except ε (Fields α)
  | [] => .ok []
  | (k, r) :: rest => do
    let v ← r
    let vs ← gather rest
    return (k, v) :: vs

/-- Puts an entry in front of the first one that its key may precede. -/
def place (before : String → String → Bool) (e : String × α) : Fields α → Fields α
  | [] => [e]
  | x :: xs => if before e.1 x.1 then e :: x :: xs else x :: place before e xs

/-- Sorts the entries so that of two neighbours the first may precede the second. -/
def sortBy (before : String → String → Bool) (fs : Fields α) : Fields α :=
  fs.foldr (place before) []

/-- Sorts by key, in the order of code points. -/
def sort (fs : Fields α) : Fields α := fs.sortBy fun a b => decide (a ≤ b)

/-! ### Entries -/

theorem forall_mem_cons {P : String → α → Prop} {key : String} {w : α} {fs : Fields α} :
    (∀ k v, (k, v) ∈ (key, w) :: fs → P k v) ↔ P key w ∧ ∀ k v, (k, v) ∈ fs → P k v := by
  constructor
  · intro h
    exact ⟨h _ _ (List.mem_cons_self ..), fun k v hv => h k v (List.mem_cons_of_mem _ hv)⟩
  · rintro ⟨hw, h⟩ k v hv
    rcases List.mem_cons.mp hv with hv | hv
    · cases hv; exact hw
    · exact h k v hv

theorem mem_of_mem_insert {fs : Fields α} {key : String} {v : α} {e : String × α}
    (h : e ∈ fs.insert key v) : e ∈ fs ∨ e = (key, v) := by
  induction fs with
  | nil => exact .inr (by simpa [insert] using h)
  | cons x fs ih =>
    obtain ⟨k, w⟩ := x
    simp only [insert] at h
    split at h
    · next hk =>
      subst hk
      rcases List.mem_cons.mp h with rfl | h
      · exact .inr rfl
      · exact .inl (List.mem_cons_of_mem _ h)
    · rcases List.mem_cons.mp h with rfl | h
      · exact .inl (List.mem_cons_self ..)
      · exact (ih h).imp_left (List.mem_cons_of_mem _)

theorem mem_of_mem_insertAll {fs more : Fields α} {e : String × α} (h : e ∈ fs.insertAll more) :
    e ∈ fs ∨ e ∈ more := by
  induction more generalizing fs with
  | nil => exact .inl h
  | cons x more ih =>
    have h : e ∈ (fs.insert x.1 x.2).insertAll more := h
    rcases ih h with h | h
    · rcases mem_of_mem_insert h with h | rfl
      · exact .inl h
      · exact .inr (List.mem_cons_self ..)
    · exact .inr (List.mem_cons_of_mem _ h)

theorem mem_of_mem_erase {fs : Fields α} {key : String} {e : String × α} (h : e ∈ fs.erase key) :
    e ∈ fs :=
  (List.mem_filter.mp h).1

/-! ### Reading after writing -/

@[simp] theorem get?_nil (key : String) : get? ([] : Fields α) key = none := rfl

theorem get?_cons (k : String) (v : α) (fs : Fields α) (key : String) :
    get? ((k, v) :: fs) key = if k = key then some v else get? fs key := rfl

theorem get?_insert (fs : Fields α) (key : String) (v : α) (k : String) :
    (fs.insert key v).get? k = if key = k then some v else fs.get? k := by
  induction fs with
  | nil => simp [insert, get?_cons]
  | cons e fs ih =>
    obtain ⟨k', old⟩ := e
    simp only [insert]
    by_cases h : k' = key
    · subst h
      by_cases hk : k' = k <;> simp [get?_cons, hk]
    · simp only [h, if_false, get?_cons, ih]
      by_cases hk : k' = k
      · subst hk
        simp [Ne.symm h]
      · simp [hk]

theorem get?_erase (fs : Fields α) (key k : String) :
    (fs.erase key).get? k = if key = k then none else fs.get? k := by
  induction fs with
  | nil => simp [erase]
  | cons e fs ih =>
    obtain ⟨k', old⟩ := e
    simp only [erase] at ih ⊢
    by_cases h : k' = key
    · subst h
      by_cases hk : k' = k <;> simp_all [get?_cons]
    · by_cases hk : k' = k
      · subst hk
        simp [h, get?_cons, Ne.symm h]
      · simp_all [get?_cons]

theorem get?_isSome_iff (fs : Fields α) (key : String) :
    (fs.get? key).isSome ↔ key ∈ fs.keys := by
  induction fs with
  | nil => simp [keys]
  | cons e fs ih =>
    obtain ⟨k, v⟩ := e
    by_cases h : k = key
    · simp [get?_cons, keys, h]
    · simp only [keys] at ih
      simp [get?_cons, keys, h, ih, Ne.symm h]

theorem mem_of_get? {fs : Fields α} {key : String} {v : α} (h : fs.get? key = some v) :
    (key, v) ∈ fs := by
  induction fs with
  | nil => simp at h
  | cons e fs ih =>
    obtain ⟨k, w⟩ := e
    rw [get?_cons] at h
    split at h
    · simp_all
    · exact List.mem_cons_of_mem _ (ih h)

/-! ### Distinct keys -/

instance (fs : Fields α) : Decidable fs.Distinct := inferInstanceAs (Decidable fs.keys.Nodup)

theorem keys_insert_of_mem {fs : Fields α} {key : String} (v : α) (h : key ∈ fs.keys) :
    (fs.insert key v).keys = fs.keys := by
  induction fs with
  | nil => simp [keys] at h
  | cons e fs ih =>
    obtain ⟨k, w⟩ := e
    by_cases hk : k = key
    · simp [insert, hk, keys]
    · have : key ∈ keys fs := by
        simpa [keys, Ne.symm hk] using h
      simpa [insert, hk, keys] using ih this

theorem keys_insert_of_not_mem {fs : Fields α} {key : String} (v : α) (h : key ∉ fs.keys) :
    (fs.insert key v).keys = fs.keys ++ [key] := by
  induction fs with
  | nil => simp [insert, keys]
  | cons e fs ih =>
    obtain ⟨k, w⟩ := e
    simp only [keys, List.map_cons, List.mem_cons, not_or] at h
    have hk : ¬ k = key := fun hk => h.1 hk.symm
    simpa [insert, hk, keys] using ih h.2

theorem Distinct.insert {fs : Fields α} (h : fs.Distinct) (key : String) (v : α) :
    (fs.insert key v).Distinct := by
  unfold Distinct
  by_cases hk : key ∈ fs.keys
  · rwa [keys_insert_of_mem v hk]
  · rw [keys_insert_of_not_mem v hk]
    exact List.nodup_append.mpr ⟨h, by simp, by
      intro a ha b hb
      simp only [List.mem_singleton] at hb
      rintro rfl
      exact hk (hb ▸ ha)⟩

theorem Distinct.erase {fs : Fields α} (h : fs.Distinct) (key : String) :
    (fs.erase key).Distinct :=
  h.sublist ((List.filter_sublist).map Prod.fst)

theorem Distinct.insertAll {fs : Fields α} (h : fs.Distinct) (more : Fields α) :
    (fs.insertAll more).Distinct := by
  induction more generalizing fs with
  | nil => exact h
  | cons e more ih => exact ih (h.insert e.1 e.2)

theorem distinct_ofList (entries : Fields α) : (ofList entries).Distinct :=
  @Distinct.insertAll _ [] List.nodup_nil entries

/-! ### Mapping and sorting -/

theorem get?_mapValues (f : α → β) (fs : Fields α) (key : String) :
    (fs.mapValues f).get? key = (fs.get? key).map f := by
  induction fs with
  | nil => rfl
  | cons e fs ih =>
    obtain ⟨k, v⟩ := e
    simp only [mapValues] at ih
    simp only [mapValues, List.map_cons, get?_cons, ih]
    split <;> rfl

theorem keys_mapValues (f : α → β) (fs : Fields α) : (fs.mapValues f).keys = fs.keys := by
  simp [keys, mapValues, Function.comp_def]

theorem place_perm (before : String → String → Bool) (e : String × α) (fs : Fields α) :
    (place before e fs).Perm (e :: fs) := by
  induction fs with
  | nil => exact .refl _
  | cons x fs ih =>
    simp only [place]
    split
    · exact .refl _
    · exact (ih.cons x).trans (.swap e x fs)

/-- Sorting neither loses nor adds an entry. -/
theorem sortBy_perm (before : String → String → Bool) (fs : Fields α) :
    (fs.sortBy before).Perm fs := by
  induction fs with
  | nil => exact .refl _
  | cons e fs ih => exact (place_perm before e _).trans (ih.cons e)

theorem Distinct.sortBy {fs : Fields α} (h : fs.Distinct) (before : String → String → Bool) :
    (fs.sortBy before).Distinct :=
  ((sortBy_perm before fs).map Prod.fst).nodup_iff.mpr h

theorem pairwise_place {before : String → String → Bool}
    (total : ∀ a b, before a b = false → before b a = true)
    (trans : ∀ a b c, before a b = true → before b c = true → before a c = true)
    (e : String × α) {fs : Fields α} (h : fs.Pairwise fun x y => before x.1 y.1 = true) :
    (place before e fs).Pairwise fun x y => before x.1 y.1 = true := by
  induction fs with
  | nil => simp [place]
  | cons x fs ih =>
    obtain ⟨hx, hfs⟩ := List.pairwise_cons.mp h
    simp only [place]
    split
    · next he =>
      refine List.pairwise_cons.mpr ⟨fun y hy => ?_, h⟩
      rcases List.mem_cons.mp hy with rfl | hy
      · exact he
      · exact trans _ _ _ he (hx y hy)
    · next he =>
      refine List.pairwise_cons.mpr ⟨fun y hy => ?_, ih hfs⟩
      rcases List.mem_cons.mp ((place_perm before e fs).mem_iff.mp hy) with rfl | hy
      · exact total _ _ (by simpa using he)
      · exact hx y hy

/-- Sorted by a total transitive relation, an entry may precede every later one. -/
theorem pairwise_sortBy {before : String → String → Bool}
    (total : ∀ a b, before a b = false → before b a = true)
    (trans : ∀ a b c, before a b = true → before b c = true → before a c = true)
    (fs : Fields α) : (fs.sortBy before).Pairwise fun x y => before x.1 y.1 = true := by
  induction fs with
  | nil => exact .nil
  | cons e fs ih => exact pairwise_place total trans e ih

theorem get?_of_mem {fs : Fields α} (h : fs.Distinct) {key : String} {v : α}
    (hm : (key, v) ∈ fs) : fs.get? key = some v := by
  induction fs with
  | nil => simp at hm
  | cons e fs ih =>
    obtain ⟨k, w⟩ := e
    simp only [Distinct, keys, List.map_cons, List.nodup_cons] at h
    rcases List.mem_cons.mp hm with he | hm
    · simp only [Prod.mk.injEq] at he
      simp [get?_cons, he]
    · have hk : ¬ k = key := fun hk => h.1 (hk ▸ List.mem_map_of_mem hm)
      rw [get?_cons, if_neg hk]
      exact ih h.2 hm

/-- With distinct keys, what lies under a key does not depend on the order. -/
theorem get?_of_perm {fs gs : Fields α} (h : fs.Distinct) (hp : fs.Perm gs) (key : String) :
    gs.get? key = fs.get? key := by
  have hg : Distinct gs := (hp.map Prod.fst).nodup_iff.mp h
  cases hf : fs.get? key with
  | some v => exact get?_of_mem hg (hp.mem_iff.mp (mem_of_get? hf))
  | none =>
    cases hk : gs.get? key with
    | none => rfl
    | some w =>
      have := get?_of_mem h (hp.mem_iff.mpr (mem_of_get? hk))
      simp [hf] at this

end Fields

end ConfigSchema
