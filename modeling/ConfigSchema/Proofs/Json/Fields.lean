import ConfigSchema.Json.Fields
import Mathlib.Data.List.Induction

/-!
# Ordered maps as finite functions

With distinct keys an entry is in the map exactly if `get?` finds it, so two such maps with the
same `get?` are permutations of each other, and sorting makes them equal (`sortBy_congr`).
`gather` succeeds exactly on maps in which every value is there (`gather_eq_ok_iff`). An update by
`insertAll` replaces entries in their place and appends others (`updates_insertAll`), and of two
updates of the same keys the second counts (`insertAll_insertAll`). In the map made of a list of
entries a key stands where it first comes up (`keys_ofList`) and has its last value (`get?_ofList`).
-/

namespace ConfigSchema

namespace Fields

variable {α β ε : Type}

/-! ### Entries -/

theorem get?_eq_none_iff {fs : Fields α} {k : String} : fs.get? k = none ↔ k ∉ fs.keys := by
  rw [← get?_isSome_iff]; simp

theorem keys_nil : keys ([] : Fields α) = [] := rfl

theorem keys_cons (key : String) (v : α) (fs : Fields α) : keys ((key, v) :: fs) = key :: keys fs :=
  rfl

theorem mem_keys_iff {fs : Fields α} {k : String} : k ∈ fs.keys ↔ ∃ v, (k, v) ∈ fs := by
  simp [keys]

theorem mem_iff_get? {fs : Fields α} (h : fs.Distinct) {k : String} {v : α} :
    (k, v) ∈ fs ↔ fs.get? k = some v :=
  ⟨get?_of_mem h, mem_of_get?⟩

theorem Distinct.nodup {fs : Fields α} (h : fs.Distinct) : fs.Nodup :=
  (List.pairwise_map.mp h).imp fun hne heq => hne (congrArg Prod.fst heq)

theorem perm_of_get? {fs gs : Fields α} (hf : fs.Distinct) (hg : gs.Distinct)
    (h : ∀ k, fs.get? k = gs.get? k) : fs.Perm gs := by
  refine (List.perm_ext_iff_of_nodup hf.nodup hg.nodup).mpr fun ⟨k, v⟩ => ?_
  rw [mem_iff_get? hf, mem_iff_get? hg, h]

/-- What is inserted wins over what was there. -/
theorem get?_insertAll {more : Fields α} (h : more.Distinct) (fs : Fields α) (k : String) :
    (fs.insertAll more).get? k = (more.get? k).or (fs.get? k) := by
  induction more generalizing fs with
  | nil => rfl
  | cons e more ih =>
    obtain ⟨key, v⟩ := e
    obtain ⟨hkey, hmore⟩ := List.nodup_cons.mp h
    show ((fs.insert key v).insertAll more).get? k = _
    rw [ih hmore, get?_insert, get?_cons]
    split
    · next hk =>
      subst hk
      rw [get?_eq_none_iff.mpr hkey]; rfl
    · rfl

theorem get?_insertAll_congr {fs gs : Fields α} {k : String} (h : fs.get? k = gs.get? k)
    (more : Fields α) : (fs.insertAll more).get? k = (gs.insertAll more).get? k := by
  induction more generalizing fs gs with
  | nil => exact h
  | cons e more ih =>
    have he : (fs.insert e.1 e.2).get? k = (gs.insert e.1 e.2).get? k := by
      rw [get?_insert, get?_insert, h]
    exact ih he

theorem mem_mapValues {f : α → β} {fs : Fields α} {k : String} {w : β} :
    (k, w) ∈ fs.mapValues f ↔ ∃ v, (k, v) ∈ fs ∧ f v = w := by
  simp only [mapValues, List.mem_map, Prod.mk.injEq, Prod.exists]
  constructor
  · rintro ⟨_, v, hv, rfl, rfl⟩; exact ⟨v, hv, rfl⟩
  · rintro ⟨v, hv, rfl⟩; exact ⟨k, v, hv, rfl, rfl⟩

theorem distinct_mapValues {f : α → β} {fs : Fields α} :
    (fs.mapValues f).Distinct ↔ fs.Distinct := by
  unfold Distinct
  rw [keys_mapValues]

/-! ### Mapping with the key -/

def mapEntries (f : String → α → β) (fs : Fields α) : Fields β := fs.map fun e => (e.1, f e.1 e.2)

section

variable {f : String → α → β}

theorem keys_mapEntries (fs : Fields α) : keys (mapEntries f fs) = keys fs := by
  simp [keys, mapEntries, Function.comp_def]

theorem get?_mapEntries (fs : Fields α) (k : String) :
    get? (mapEntries f fs) k = (get? fs k).map (f k) := by
  induction fs with
  | nil => rfl
  | cons e fs ih =>
    show (if e.1 = k then some (f e.1 e.2) else get? (mapEntries f fs) k) = _
    rw [ih, get?_cons]
    split
    · next h => subst h; rfl
    · rfl

theorem mem_mapEntries {fs : Fields α} {k : String} {w : β} :
    (k, w) ∈ mapEntries f fs ↔ ∃ v, (k, v) ∈ fs ∧ f k v = w := by
  simp only [mapEntries, List.mem_map, Prod.mk.injEq, Prod.exists]
  constructor
  · rintro ⟨_, v, hv, rfl, rfl⟩; exact ⟨v, hv, rfl⟩
  · rintro ⟨v, hv, rfl⟩; exact ⟨k, v, hv, rfl, rfl⟩

theorem mapEntries_erase (fs : Fields α) (key : String) :
    mapEntries f (erase fs key) = erase (mapEntries f fs) key := by
  simp only [mapEntries, erase, List.filter_map, Function.comp_def]

theorem mapEntries_insert (fs : Fields α) (key : String) (v : α) :
    mapEntries f (insert fs key v) = insert (mapEntries f fs) key (f key v) := by
  induction fs with
  | nil => rfl
  | cons e fs ih =>
    show mapEntries f (if e.1 = key then _ else _) = if e.1 = key then _ else _
    split
    · next h => subst h; rfl
    · exact congrArg ((e.1, f e.1 e.2) :: ·) ih

theorem mapEntries_insertAll (fs more : Fields α) :
    mapEntries f (insertAll fs more) = insertAll (mapEntries f fs) (mapEntries f more) := by
  induction more generalizing fs with
  | nil => rfl
  | cons e more ih => exact (ih _).trans (congrArg (insertAll · _) (mapEntries_insert ..))

theorem mapEntries_congr {g : String → α → β} {fs : Fields α}
    (h : ∀ k v, (k, v) ∈ fs → f k v = g k v) : mapEntries f fs = mapEntries g fs :=
  List.map_congr_left fun e he => congrArg (e.1, ·) (h e.1 e.2 he)

end

/-- A new key goes to the end. -/
theorem insert_of_distinct_append {fs gs : Fields α} {key : String} {v : α}
    (h : Distinct (fs ++ (key, v) :: gs)) : fs.insert key v = fs ++ [(key, v)] := by
  induction fs with
  | nil => rfl
  | cons e fs ih =>
    obtain ⟨k, old⟩ := e
    obtain ⟨hk, h⟩ := List.nodup_cons.mp h
    have hne : k ≠ key := by
      rintro rfl
      exact hk (List.mem_map.mpr ⟨(k, v), List.mem_append_right fs (List.mem_cons_self ..), rfl⟩)
    rw [insert, if_neg hne, ih h]
    rfl

theorem insert_of_get? {fs : Fields α} {key : String} {v : α} (h : fs.get? key = some v) :
    fs.insert key v = fs := by
  induction fs with
  | nil => cases h
  | cons e fs ih =>
    obtain ⟨k, w⟩ := e
    rw [get?_cons] at h
    show (if k = key then _ else _) = _
    split
    · next hk => rw [if_pos hk] at h; cases h; rfl
    · next hk => rw [if_neg hk] at h; rw [ih h]

/-! ### Updates -/

/-- `gs` is `fs` with the entries of `changes`: what stands under a key that exists is replaced in
its place, and the other entries are appended in their order. -/
structure Updates (changes fs gs : Fields α) : Prop where
  keys : gs.keys = fs.keys ++ changes.keys.filter fun key => key ∉ fs.keys
  get? : ∀ k, gs.get? k = (changes.get? k).or (fs.get? k)

theorem keys_insertAll {more : Fields α} (h : more.Distinct) (fs : Fields α) :
    (fs.insertAll more).keys = fs.keys ++ more.keys.filter fun key => key ∉ fs.keys := by
  induction more generalizing fs with
  | nil => exact (List.append_nil _).symm
  | cons e more ih =>
    obtain ⟨key, v⟩ := e
    obtain ⟨hkey, hmore⟩ := List.nodup_cons.mp h
    show ((fs.insert key v).insertAll more).keys = _
    rw [ih hmore, keys_cons]
    by_cases hmem : key ∈ fs.keys
    · rw [keys_insert_of_mem v hmem, List.filter_cons_of_neg (by simpa using hmem)]
    · rw [keys_insert_of_not_mem v hmem, List.filter_cons_of_pos (by simpa using hmem),
        List.append_assoc, List.singleton_append]
      refine congrArg (fs.keys ++ key :: ·) (List.filter_congr fun k hk => ?_)
      have hne : k ≠ key := fun heq => hkey (heq ▸ hk)
      simp [hne]

theorem updates_insertAll {changes : Fields α} (h : changes.Distinct) (fs : Fields α) :
    Updates changes fs (fs.insertAll changes) :=
  ⟨keys_insertAll h fs, get?_insertAll h fs⟩

/-- The second of two values under one key counts. -/
theorem insert_insert (fs : Fields α) (key : String) (v w : α) :
    (fs.insert key v).insert key w = fs.insert key w := by
  induction fs with
  | nil => exact if_pos rfl
  | cons e fs ih =>
    obtain ⟨k, old⟩ := e
    by_cases hk : k = key
    · simp [insert, hk]
    · simp [insert, hk, ih]

/-- A key that exists keeps its place, whatever is inserted before. -/
theorem insert_comm_of_mem {fs : Fields α} {key key' : String} (h : key' ∈ fs.keys)
    (hne : key ≠ key') (v w : α) :
    (fs.insert key v).insert key' w = (fs.insert key' w).insert key v := by
  induction fs with
  | nil => cases h
  | cons e fs ih =>
    obtain ⟨k, old⟩ := e
    by_cases hk : k = key
    · simp [insert, hk, hne]
    · by_cases hk' : k = key'
      · simp [insert, hk', Ne.symm hne]
      · have hmem : key' ∈ keys fs := (List.mem_cons.mp h).resolve_left (Ne.symm hk')
        simp [insert, hk, hk', ih hmem]

theorem insertAll_insert_comm {fs more : Fields α} {key : String} (h : key ∈ fs.keys)
    (hkey : key ∉ more.keys) (w : α) :
    (fs.insertAll more).insert key w = (fs.insert key w).insertAll more := by
  induction more generalizing fs with
  | nil => rfl
  | cons e more ih =>
    obtain ⟨k, v⟩ := e
    obtain ⟨hne, hmore⟩ := not_or.mp (mt List.mem_cons.mpr hkey)
    have hmem : key ∈ (fs.insert k v).keys := by
      by_cases hk : k ∈ fs.keys
      · rwa [keys_insert_of_mem v hk]
      · rw [keys_insert_of_not_mem v hk]
        exact List.mem_append_left _ h
    show ((fs.insert k v).insertAll more).insert key w = ((fs.insert key w).insert k v).insertAll more
    rw [ih hmem hmore, insert_comm_of_mem h (Ne.symm hne)]

/-- Of two updates of the same keys the second counts. -/
theorem insertAll_insertAll {more more' : Fields α} (h : more.Distinct)
    (hkeys : more.keys = more'.keys) (fs : Fields α) :
    (fs.insertAll more).insertAll more' = fs.insertAll more' := by
  induction more generalizing more' fs with
  | nil =>
    rw [List.map_eq_nil_iff.mp hkeys.symm]
    rfl
  | cons e more ih =>
    obtain ⟨key, v⟩ := e
    obtain ⟨⟨key', w⟩, rest, rfl, rfl, hrest⟩ := List.map_eq_cons_iff.mp hkeys.symm
    obtain ⟨hkey, hmore⟩ := List.nodup_cons.mp h
    have hmem : key' ∈ (fs.insert key' v).keys := by
      rw [← get?_isSome_iff, get?_insert, if_pos rfl]
      rfl
    show (((fs.insert key' v).insertAll more).insert key' w).insertAll rest =
      (fs.insert key' w).insertAll rest
    rw [insertAll_insert_comm hmem hkey, insert_insert, ih hmore hrest.symm]

/-! ### Maps made of lists -/

theorem get?_append (fs gs : Fields α) (key : String) :
    get? (fs ++ gs) key = (get? fs key).or (get? gs key) := by
  induction fs with
  | nil => rfl
  | cons e fs ih =>
    obtain ⟨k, v⟩ := e
    rw [List.cons_append, get?_cons, get?_cons, ih]
    split <;> rfl

theorem get?_reverse {fs : Fields α} (h : fs.Distinct) (key : String) :
    get? fs.reverse key = get? fs key :=
  get?_of_perm h (List.reverse_perm fs).symm key

theorem ofList_append_singleton (entries : Fields α) (e : String × α) :
    ofList (entries ++ [e]) = (ofList entries).insert e.1 e.2 := by
  rw [ofList, insertAll, List.foldl_append]
  rfl

theorem keys_ofList (entries : Fields α) : keys (ofList entries) = (keys entries).eraseDups := by
  induction entries using List.reverseRecOn with
  | nil => rfl
  | append_singleton entries e ih =>
    have hkeys : keys (entries ++ [e]) = keys entries ++ [e.1] := List.map_append ..
    have hmem : e.1 ∈ keys (ofList entries) ↔ e.1 ∈ keys entries := by rw [ih, List.mem_eraseDups]
    rw [ofList_append_singleton, hkeys, List.eraseDups_append, ← ih]
    by_cases h : e.1 ∈ keys entries
    · rw [keys_insert_of_mem _ (hmem.mpr h)]
      simp [List.removeAll, h]
    · rw [keys_insert_of_not_mem _ (mt hmem.mp h)]
      simp [List.removeAll, h, List.eraseDups_cons]

theorem get?_ofList (entries : Fields α) (key : String) :
    get? (ofList entries) key = get? entries.reverse key := by
  induction entries using List.reverseRecOn with
  | nil => rfl
  | append_singleton entries e ih =>
    rw [ofList_append_singleton, get?_insert, ih, List.reverse_append]
    rfl

/-! ### An entry among others -/

theorem get?_append_cons {fs gs : Fields α} {key : String} (v : α) (h : key ∉ fs.keys) :
    get? (fs ++ (key, v) :: gs) key = some v := by
  rw [get?_append, get?_eq_none_iff.mpr h, get?_cons, if_pos rfl]
  rfl

theorem erase_of_not_mem {fs : Fields α} {key : String} (h : key ∉ fs.keys) : fs.erase key = fs := by
  refine List.filter_eq_self.mpr fun e he => decide_eq_true fun hkey => h ?_
  rw [← hkey]
  exact List.mem_map_of_mem he

theorem erase_append_cons {fs gs : Fields α} {key : String} (v : α) (h : key ∉ keys (fs ++ gs)) :
    erase (fs ++ (key, v) :: gs) key = fs ++ gs := by
  rw [← erase_of_not_mem h]
  simp [erase]

/-! ### Gathering -/

theorem gather_eq_ok_iff {fs : Fields (Except ε α)} {gs : Fields α} :
    gather fs = .ok gs ↔ fs = gs.mapValues .ok := by
  induction fs generalizing gs with
  | nil => cases gs <;> simp [gather, mapValues]
  | cons e fs ih =>
    obtain ⟨k, r⟩ := e
    cases r with
    | error => cases gs <;> simp [gather, mapValues, bind, Except.bind]
    | ok v =>
      constructor
      · intro h
        cases hg : gather fs with
        | error => simp [gather, bind, Except.bind, hg] at h
        | ok vs =>
          simp only [gather, bind, Except.bind, hg, pure, Except.pure, Except.ok.injEq] at h
          rw [← h, ih.mp hg]; rfl
      · intro h
        cases gs with
        | nil => simp [mapValues] at h
        | cons e gs =>
          simp only [mapValues, List.map_cons, List.cons.injEq, Prod.mk.injEq,
            Except.ok.injEq] at h
          obtain ⟨⟨rfl, rfl⟩, h⟩ := h
          simp [gather, ih.mpr h, bind, Except.bind, pure, Except.pure]

theorem gather_mapValues_ok (fs : Fields α) : gather (fs.mapValues (.ok : α → Except ε α)) = .ok fs :=
  gather_eq_ok_iff.mpr rfl

theorem mapValues_ok_inj {fs gs : Fields α}
    (h : fs.mapValues (.ok : α → Except ε α) = gs.mapValues .ok) : fs = gs :=
  Except.ok.inj ((gather_mapValues_ok fs).symm.trans (gather_eq_ok_iff.mpr h))

theorem exists_gather_iff {fs : Fields (Except ε α)} :
    (∃ gs, gather fs = .ok gs) ↔ ∀ k r, (k, r) ∈ fs → ∃ v, r = .ok v := by
  constructor
  · rintro ⟨gs, h⟩ k r hr
    rw [gather_eq_ok_iff] at h
    subst h
    obtain ⟨v, -, rfl⟩ := mem_mapValues.mp hr
    exact ⟨v, rfl⟩
  · intro h
    induction fs with
    | nil => exact ⟨[], rfl⟩
    | cons e fs ih =>
      obtain ⟨k, r⟩ := e
      obtain ⟨v, rfl⟩ := h k r (List.mem_cons_self ..)
      obtain ⟨gs, hg⟩ := ih fun k r hr => h k r (List.mem_cons_of_mem _ hr)
      exact ⟨(k, v) :: gs, by simp [gather, hg, bind, Except.bind, pure, Except.pure]⟩

theorem mem_of_gather_eq_error {fs : Fields (Except ε α)} {e : ε} (h : gather fs = .error e) :
    ∃ k, (k, .error e) ∈ fs := by
  induction fs with
  | nil => cases h
  | cons entry fs ih =>
    obtain ⟨k, r⟩ := entry
    cases r with
    | error e' =>
      cases h
      exact ⟨k, List.mem_cons_self ..⟩
    | ok v =>
      have hrest : gather fs = .error e := by
        cases hg : gather fs with
        | ok vs => simp [gather, hg, bind, Except.bind, pure, Except.pure] at h
        | error e' => simpa [gather, hg, bind, Except.bind] using h
      obtain ⟨k', hk'⟩ := ih hrest
      exact ⟨k', List.mem_cons_of_mem _ hk'⟩

/-! ### Sorting -/

section

variable {before : String → String → Bool}

theorem mem_sortBy {fs : Fields α} {e : String × α} : e ∈ fs.sortBy before ↔ e ∈ fs :=
  (sortBy_perm before fs).mem_iff

theorem get?_sortBy {fs : Fields α} (h : fs.Distinct) (k : String) :
    (fs.sortBy before).get? k = fs.get? k :=
  get?_of_perm h (sortBy_perm before fs).symm k

theorem keys_sortBy_perm (fs : Fields α) : (fs.sortBy before).keys.Perm fs.keys :=
  (sortBy_perm before fs).map Prod.fst

theorem sortBy_mapEntries (f : String → α → β) (fs : Fields α) :
    sortBy before (mapEntries f fs) = mapEntries f (sortBy before fs) := by
  have place_map (e : String × α) (gs : Fields α) :
      place before (e.1, f e.1 e.2) (mapEntries f gs) = mapEntries f (place before e gs) := by
    induction gs with
    | nil => rfl
    | cons x gs ih =>
      simp only [mapEntries, List.map_cons, place] at ih ⊢
      split
      · rfl
      · rw [ih]; rfl
  induction fs with
  | nil => rfl
  | cons e fs ih =>
    show place before (e.1, f e.1 e.2) (sortBy before (mapEntries f fs)) = _
    rw [ih, place_map]; rfl

theorem sortBy_of_pairwise {fs : Fields α} (h : fs.Pairwise fun x y => before x.1 y.1 = true) :
    fs.sortBy before = fs := by
  induction fs with
  | nil => rfl
  | cons e fs ih =>
    obtain ⟨he, hfs⟩ := List.pairwise_cons.mp h
    show place before e (sortBy before fs) = _
    rw [ih hfs]
    cases fs with
    | nil => rfl
    | cons x fs => simp [place, he x (List.mem_cons_self ..)]

/-- The order in which the entries stood has no influence on the sorted map. -/
theorem sortBy_congr (total : ∀ a b, before a b = false → before b a = true)
    (trans : ∀ a b c, before a b = true → before b c = true → before a c = true)
    (antisymm : ∀ a b, before a b = true → before b a = true → a = b) {fs gs : Fields α}
    (hf : fs.Distinct) (hg : gs.Distinct) (h : ∀ k, fs.get? k = gs.get? k) :
    fs.sortBy before = gs.sortBy before := by
  have hperm : (fs.sortBy before).Perm (gs.sortBy before) :=
    ((sortBy_perm before fs).trans (perm_of_get? hf hg h)).trans (sortBy_perm before gs).symm
  refine List.Perm.eq_of_pairwise ?_ (pairwise_sortBy total trans fs)
    (pairwise_sortBy total trans gs) hperm
  rintro ⟨a, v⟩ ⟨b, w⟩ ha hb hab hba
  obtain rfl := antisymm a b hab hba
  have hv := (mem_iff_get? hf).mp (mem_sortBy.mp ha)
  have hw := (mem_iff_get? hg).mp (mem_sortBy.mp hb)
  rw [h, hw] at hv
  simpa using hv.symm

end

/-- Whether `a` may stand in front of `b` in a sorted map. -/
def nameLe (a b : String) : Bool := decide (a ≤ b)

theorem nameLe_total (a b : String) (h : nameLe a b = false) : nameLe b a = true :=
  decide_eq_true ((String.le_total a b).resolve_left (of_decide_eq_false h))

theorem nameLe_trans (a b c : String) (hab : nameLe a b = true) (hbc : nameLe b c = true) :
    nameLe a c = true :=
  decide_eq_true (String.le_trans (of_decide_eq_true hab) (of_decide_eq_true hbc))

theorem nameLe_antisymm (a b : String) (hab : nameLe a b = true) (hba : nameLe b a = true) :
    a = b :=
  String.le_antisymm (of_decide_eq_true hab) (of_decide_eq_true hba)

theorem sort_eq_sortBy (fs : Fields α) : fs.sort = fs.sortBy nameLe := rfl

theorem sort_mapEntries (f : String → α → β) (fs : Fields α) :
    sort (mapEntries f fs) = mapEntries f (sort fs) :=
  sortBy_mapEntries f fs

theorem sort_mapValues (f : α → β) (fs : Fields α) : (fs.mapValues f).sort = fs.sort.mapValues f :=
  sortBy_mapEntries (fun _ => f) fs

theorem sort_congr {fs gs : Fields α} (hf : fs.Distinct) (hg : gs.Distinct)
    (h : ∀ k, fs.get? k = gs.get? k) : fs.sort = gs.sort := by
  rw [sort_eq_sortBy, sort_eq_sortBy]
  exact sortBy_congr nameLe_total nameLe_trans nameLe_antisymm hf hg h

theorem pairwise_sort (fs : Fields α) : fs.sort.Pairwise fun x y => nameLe x.1 y.1 = true :=
  pairwise_sortBy nameLe_total nameLe_trans fs

theorem sort_of_pairwise {fs : Fields α} (h : fs.Pairwise fun x y => nameLe x.1 y.1 = true) :
    fs.sort = fs :=
  sortBy_of_pairwise h

end Fields

end ConfigSchema
