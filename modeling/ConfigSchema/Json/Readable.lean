import ConfigSchema.Json.Document
import ConfigSchema.Json.Pointer
import ConfigSchema.Json.Reader

/-!
# Documents within a bound

`n.Within bound` says that no key occurs twice in `n` and that it is no deeper than `bound`: a
container is if there is room for it and its parts are within a bound that is smaller by one. What a
reader may meet inside `outside` containers is within the depth that is left there,
`n.Readable outside`, and so are its parts one level further in.
-/

namespace ConfigSchema

namespace Node

section

variable {n v : Node} {xs : List Node} {fs : Object} {key : String} {d bound : Nat}

theorem depthItems_le_iff : depthItems xs ≤ d ↔ ∀ x ∈ xs, x.depth ≤ d := by
  induction xs with
  | nil => simp [depthItems]
  | cons x xs ih => rw [depthItems, Nat.max_le, ih, List.forall_mem_cons]

theorem depthFields_le_iff : depthFields fs ≤ d ↔ ∀ k v, (k, v) ∈ fs → v.depth ≤ d := by
  induction fs with
  | nil => simp [depthFields]
  | cons e fs ih => rw [depthFields, Nat.max_le, ih, Fields.forall_mem_cons]

/-! ### Documents within a bound -/

structure Within (bound : Nat) (n : Node) : Prop where
  distinct : n.Distinct
  depth : n.depth ≤ bound

theorem within_array_iff :
    (array xs).Within bound ↔ 0 < bound ∧ ∀ x ∈ xs, x.Within (bound - 1) := by
  constructor
  · rintro ⟨hdistinct, hdepth⟩
    rw [Node.depth] at hdepth
    refine ⟨by omega, fun x hx => ⟨hdistinct.item hx, ?_⟩⟩
    exact depthItems_le_iff.mp (Nat.le_sub_one_of_lt hdepth) x hx
  · rintro ⟨hroom, h⟩
    refine ⟨everywhere_array.mpr fun x hx => (h x hx).distinct, ?_⟩
    have hle : depthItems xs ≤ bound - 1 := depthItems_le_iff.mpr fun x hx => (h x hx).depth
    rw [Node.depth]
    omega

theorem within_object_iff : (object fs).Within bound ↔
    0 < bound ∧ Fields.Distinct fs ∧ ∀ k v, (k, v) ∈ fs → v.Within (bound - 1) := by
  constructor
  · rintro ⟨hdistinct, hdepth⟩
    rw [Node.depth] at hdepth
    refine ⟨by omega, hdistinct.keys, fun k v hv => ⟨hdistinct.entry hv, ?_⟩⟩
    exact depthFields_le_iff.mp (Nat.le_sub_one_of_lt hdepth) k v hv
  · rintro ⟨hroom, hkeys, h⟩
    refine ⟨everywhere_object.mpr ⟨hkeys, fun k v hv => (h k v hv).distinct⟩, ?_⟩
    have hle : depthFields fs ≤ bound - 1 := depthFields_le_iff.mpr fun k v hv => (h k v hv).depth
    rw [Node.depth]
    omega

namespace Within

theorem item (h : (array xs).Within bound) {x : Node} (hx : x ∈ xs) : x.Within (bound - 1) :=
  (within_array_iff.mp h).2 x hx

theorem entry (h : (object fs).Within bound) (hv : (key, v) ∈ fs) : v.Within (bound - 1) :=
  (within_object_iff.mp h).2.2 key v hv

theorem mono (h : n.Within d) (hd : d ≤ bound) : n.Within bound :=
  ⟨h.distinct, Nat.le_trans h.depth hd⟩

theorem erase (h : (object fs).Within bound) (key : String) :
    (object (Fields.erase fs key)).Within bound := by
  obtain ⟨hroom, hkeys, hfs⟩ := within_object_iff.mp h
  exact within_object_iff.mpr
    ⟨hroom, hkeys.erase key, fun k v hv => hfs k v (Fields.mem_of_mem_erase hv)⟩

theorem insert (h : (object fs).Within bound) (key : String) (hv : v.Within (bound - 1)) :
    (object (Fields.insert fs key v)).Within bound := by
  obtain ⟨hroom, hkeys, hfs⟩ := within_object_iff.mp h
  refine within_object_iff.mpr ⟨hroom, hkeys.insert key v, fun k w hw => ?_⟩
  rcases Fields.mem_of_mem_insert hw with hw | hw
  · exact hfs k w hw
  · cases hw
    exact hv

theorem insertAll (h : (object fs).Within bound) {more : Object}
    (hmore : ∀ k v, (k, v) ∈ more → v.Within (bound - 1)) :
    (object (Fields.insertAll fs more)).Within bound := by
  obtain ⟨hroom, hkeys, hfs⟩ := within_object_iff.mp h
  refine within_object_iff.mpr ⟨hroom, hkeys.insertAll more, fun k v hv => ?_⟩
  rcases Fields.mem_of_mem_insertAll hv with hv | hv
  · exact hfs k v hv
  · exact hmore k v hv

end Within

end

/-! ### Readable documents -/

structure Readable (outside : Nat) (n : Node) : Prop where
  distinct : n.Distinct
  depth : outside + n.depth ≤ maxDepth

variable {outside : Nat} {n v m : Node} {xs : List Node} {fs : Object} {key : String}

theorem readable_scalar (ho : n.object? = none) (ha : n.array? = none) (h : outside ≤ maxDepth) :
    n.Readable outside := by
  refine ⟨everywhere_scalar ho ha, ?_⟩
  cases n with
  | object => cases ho
  | array => cases ha
  | _ => exact h

theorem readable_iff :
    n.Readable outside ↔ outside ≤ maxDepth ∧ n.Within (maxDepth - outside) := by
  constructor
  · rintro ⟨hdistinct, hdepth⟩
    exact ⟨Nat.le_of_add_right_le hdepth, hdistinct, Nat.le_sub_of_add_le' hdepth⟩
  · rintro ⟨hroom, hdistinct, hdepth⟩
    exact ⟨hdistinct, Nat.add_le_of_le_sub' hroom hdepth⟩

theorem readable_array_iff :
    (array xs).Readable outside ↔ outside < maxDepth ∧ ∀ x ∈ xs, x.Readable (outside + 1) := by
  simp only [readable_iff, within_array_iff, Nat.sub_pos_iff_lt, Nat.sub_sub]
  constructor
  · rintro ⟨-, hroom, hxs⟩
    exact ⟨hroom, fun x hx => ⟨hroom, hxs x hx⟩⟩
  · rintro ⟨hroom, hxs⟩
    exact ⟨Nat.le_of_lt hroom, hroom, fun x hx => (hxs x hx).2⟩

theorem readable_object_iff : (object fs).Readable outside ↔
    outside < maxDepth ∧ Fields.Distinct fs ∧ ∀ k v, (k, v) ∈ fs → v.Readable (outside + 1) := by
  simp only [readable_iff, within_object_iff, Nat.sub_pos_iff_lt, Nat.sub_sub]
  constructor
  · rintro ⟨-, hroom, hkeys, hfs⟩
    exact ⟨hroom, hkeys, fun k v hv => ⟨hroom, hfs k v hv⟩⟩
  · rintro ⟨hroom, hkeys, hfs⟩
    exact ⟨Nat.le_of_lt hroom, hroom, hkeys, fun k v hv => (hfs k v hv).2⟩

namespace Readable

theorem outer (h : n.Readable (outside + 1)) : n.Readable outside :=
  ⟨h.distinct, Nat.le_trans (by omega) h.depth⟩

theorem item (h : (array xs).Readable outside) {x : Node} (hx : x ∈ xs) :
    x.Readable (outside + 1) :=
  (readable_array_iff.mp h).2 x hx

theorem entry (h : (object fs).Readable outside) (hv : (key, v) ∈ fs) : v.Readable (outside + 1) :=
  (readable_object_iff.mp h).2.2 key v hv

theorem nil_array (h : outside < maxDepth) : (array []).Readable outside :=
  readable_array_iff.mpr ⟨h, by simp⟩

theorem nil_object (h : outside < maxDepth) : (object []).Readable outside :=
  readable_object_iff.mpr ⟨h, List.nodup_nil, by simp⟩

theorem cons (hv : v.Readable (outside + 1)) (h : (array xs).Readable outside) :
    (array (v :: xs)).Readable outside := by
  obtain ⟨hroom, hxs⟩ := readable_array_iff.mp h
  exact readable_array_iff.mpr ⟨hroom, List.forall_mem_cons.mpr ⟨hv, hxs⟩⟩

theorem reverse (h : (array xs).Readable outside) : (array xs.reverse).Readable outside := by
  obtain ⟨hroom, hxs⟩ := readable_array_iff.mp h
  exact readable_array_iff.mpr ⟨hroom, fun x hx => hxs x (List.mem_reverse.mp hx)⟩

theorem insert (hv : v.Readable (outside + 1)) (h : (object fs).Readable outside) (key : String) :
    (object (Fields.insert fs key v)).Readable outside := by
  obtain ⟨hroom, h⟩ := readable_iff.mp h
  exact readable_iff.mpr ⟨hroom, h.insert key (readable_iff.mp hv).2⟩

theorem child? (hn : n.Readable outside) {token : String} (h : n.child? token = some m) :
    m.Readable outside := by
  cases n with
  | object fs => exact (hn.entry (Fields.mem_of_get? h)).outer
  | array xs =>
    obtain ⟨i, -, hi⟩ := Option.bind_eq_some_iff.mp h
    exact (hn.item (List.mem_of_getElem? hi)).outer
  | _ => cases h

theorem follow (hn : n.Readable outside) {tokens : List String} (h : n.follow tokens = some m) :
    m.Readable outside := by
  induction tokens generalizing n with
  | nil => cases h; exact hn
  | cons token tokens ih =>
    obtain ⟨part, hpart, h⟩ := Option.bind_eq_some_iff.mp h
    exact ih (hn.child? hpart) h

theorem at? (hn : n.Readable outside) {pointer : String} (h : n.at? pointer = some m) :
    m.Readable outside := by
  obtain ⟨tokens, -, h⟩ := Option.bind_eq_some_iff.mp h
  exact hn.follow h

end Readable

end Node

end ConfigSchema
