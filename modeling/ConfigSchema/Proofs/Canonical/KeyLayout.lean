import ConfigSchema.Proofs.Canonical.NullFree
import Mathlib.Data.List.Basic
import Mathlib.Data.List.Perm.Basic
import Mathlib.Data.String.Basic

/-!
# The layout of a schema object

Keys in `KeyOrder` fall into three groups (`layout`): the ones listed at the beginning, as listed;
all others, strictly increasing; and the ones listed at the end, as listed. Distinct keys can be in
this order in one way only (`eq_layout`), so it does not matter that an object is put together
bottom-up and that inlined variants bring in whole groups of keys. A canonical schema is laid out
like that at every position (`laidOut_of_canonicalAt`), and its maps of schemas are sorted by name,
whatever keywords there are among the names.
-/

namespace ConfigSchema

namespace KeyOrder

/-- The keys that are not listed. -/
def others (keys : List String) : List String :=
  keys.filter fun key => key ∉ firstKeys ∧ key ∉ lastKeys

/-- The keys in their three groups. -/
def layout (keys : List String) : List String :=
  firstKeys.filter (· ∈ keys) ++ (others keys ++ lastKeys.filter (· ∈ keys))

variable {keys : List String} {a b : String}

/-! ### Ranks -/

theorem not_mem_lastKeys (ha : a ∈ firstKeys) : a ∉ lastKeys := by
  revert a
  decide

theorem rank_lt_of_mem (ha : a ∈ firstKeys) : rank a < firstKeys.length := by
  rw [rank, if_neg (not_mem_lastKeys ha)]
  exact List.idxOf_lt_length_of_mem ha

theorem lt_rank_of_mem (ha : a ∈ lastKeys) : firstKeys.length < rank a := by
  rw [rank, if_pos ha]
  omega

theorem mem_others_iff : a ∈ others keys ↔ a ∈ keys ∧ a ∉ firstKeys ∧ a ∉ lastKeys := by
  simp [others]

theorem rank_of_mem_others (ha : a ∈ others keys) : rank a = firstKeys.length := by
  obtain ⟨-, hfirst, hlast⟩ := mem_others_iff.mp ha
  rw [rank, if_neg hlast]
  exact List.idxOf_eq_length_iff.mpr hfirst

/-! ### The order and the layout -/

/-- Comes before, and is another key. -/
def Before (a b : String) : Prop := precedes a b = true ∧ a ≠ b

instance (a b : String) : Decidable (Before a b) :=
  inferInstanceAs (Decidable (precedes a b = true ∧ a ≠ b))

theorem before_of_rank_lt (h : rank a < rank b) : Before a b :=
  ⟨precedes_iff.mpr (.inl h), fun heq => absurd h (by simp [heq])⟩

theorem mem_layout_iff : a ∈ layout keys ↔ a ∈ keys := by
  simp only [layout, List.mem_append, List.mem_filter, decide_eq_true_eq, mem_others_iff]
  by_cases hfirst : a ∈ firstKeys <;> by_cases hlast : a ∈ lastKeys <;> simp [hfirst, hlast]

theorem pairwise_layout (h : keys.Pairwise Before) : (layout keys).Pairwise Before := by
  have hfirst : firstKeys.Pairwise Before := by decide +kernel
  have hlast : lastKeys.Pairwise Before := by decide
  have hmiddle : (others keys ++ lastKeys.filter (· ∈ keys)).Pairwise Before := by
    refine List.pairwise_append.mpr ⟨h.filter _, hlast.filter _, fun a ha b hb => ?_⟩
    refine before_of_rank_lt ?_
    rw [rank_of_mem_others ha]
    exact lt_rank_of_mem (List.mem_of_mem_filter hb)
  refine List.pairwise_append.mpr ⟨hfirst.filter _, hmiddle, fun a ha b hb => ?_⟩
  refine before_of_rank_lt (Nat.lt_of_lt_of_le (rank_lt_of_mem (List.mem_of_mem_filter ha)) ?_)
  rcases List.mem_append.mp hb with hb | hb
  · exact (rank_of_mem_others hb).ge
  · exact (lt_rank_of_mem (List.mem_of_mem_filter hb)).le

/-- Distinct keys that are in order are in their layout. -/
theorem eq_layout (h : keys.Pairwise Before) : keys = layout keys := by
  have hlayout := pairwise_layout h
  have hperm : keys.Perm (layout keys) := by
    refine (List.perm_ext_iff_of_nodup (h.imp And.right) (hlayout.imp And.right)).mpr fun a => ?_
    exact mem_layout_iff.symm
  exact hperm.eq_of_pairwise (fun _ _ _ _ hab hba => precedes_antisymm hab.1 hba.1) h hlayout

theorem pairwise_others (h : keys.Pairwise Before) : (others keys).Pairwise (· < ·) := by
  have hothers : (others keys).Pairwise Before := h.filter _
  refine hothers.imp_of_mem fun {a b} ha hb hab => ?_
  rcases precedes_iff.mp hab.1 with hlt | ⟨-, hle⟩
  · rw [rank_of_mem_others ha, rank_of_mem_others hb] at hlt
    exact absurd hlt (Nat.lt_irrefl _)
  · exact lt_of_le_of_ne hle hab.2

end KeyOrder

namespace Object

variable {o : Object}

theorem Settled.before (h : o.Settled) : (Fields.keys o).Pairwise KeyOrder.Before :=
  (List.pairwise_map.mpr h.ordered).and h.distinct

theorem Sorted.increasing (h : o.Sorted) : (Fields.keys o).Pairwise (· < ·) := by
  have hordered : (Fields.keys o).Pairwise fun a b => Fields.nameLe a b = true :=
    List.pairwise_map.mpr h.ordered
  exact (hordered.and h.distinct).imp fun hab => lt_of_le_of_ne (of_decide_eq_true hab.1) hab.2

/-- The keys of the object are in their layout, the unlisted ones and the names in each of its maps
of schemas strictly increasing. -/
structure LaidOut (o : Object) : Prop where
  distinct : (Fields.keys o).Nodup
  keys : Fields.keys o = KeyOrder.firstKeys.filter (· ∈ Fields.keys o) ++
    (KeyOrder.others (Fields.keys o) ++ KeyOrder.lastKeys.filter (· ∈ Fields.keys o))
  others : (KeyOrder.others (Fields.keys o)).Pairwise (· < ·)
  maps : ∀ key ∈ ["properties", "$defs", "patternProperties"], ∀ map,
    Fields.get? o key = some (.object map) → (Fields.keys map).Pairwise (· < ·)

theorem Normal.sorted (h : o.Normal) {key : String}
    (hkey : key ∈ ["properties", "$defs", "patternProperties"]) {map : Object}
    (hmap : Fields.get? o key = some (.object map)) : map.Sorted := by
  obtain ⟨member, hmember, -⟩ := Role.exists_member_of_mem hkey
  exact ((Node.normal_iff_of_member hmember).mp (h.entry hmap)).1

theorem Normal.laidOut (h : o.Normal) : o.LaidOut where
  distinct := h.settled.distinct
  keys := KeyOrder.eq_layout h.settled.before
  others := KeyOrder.pairwise_others h.settled.before
  maps _ hkey _ hmap := (h.sorted hkey hmap).increasing

/-- At every schema position of a canonical form the keys are in their layout. -/
theorem laidOut_of_canonicalAt {x y p : Object} {location : String}
    (hx : (Node.object x).Distinct) (h : x.canonicalAt location = .ok y) (hp : y.Position p) :
    p.LaidOut :=
  ((normal_of_canonicalAt hx h).position hp).laidOut

/-- Names of properties and definitions that are keywords as well, some of them brought in by a
union. -/
def scattered : Object := [
  ("$defs", .object [("title", .object []), ("$id", .object []), ("Z", .bool true)]),
  ("zone", .null),
  ("anyOf", .array [.object [("type", .string "null")], .object [
    ("examples", .array []),
    ("properties", .object [
      ("type", .object [("zone", .null), ("examples", .null), ("Zone", .null), ("title", .null)]),
      ("examples", .bool true), ("$ref", .bool false)]),
    ("area", .null)]]),
  ("$ref", .string "#")]

/-- The canonical form of `scattered`. -/
def scatteredLaidOut : Object := [
  ("$ref", .string "#"),
  ("properties", .object [
    ("$ref", .bool false), ("examples", .bool true),
    ("type", .object [("title", .null), ("Zone", .null), ("zone", .null), ("examples", .null)])]),
  ("area", .null),
  ("zone", .null),
  ("examples", .array []),
  ("$defs", .object [("$id", .object []), ("Z", .bool true), ("title", .object [])])]

theorem laidOut_of_canonicalAt_scattered :
    (Node.object scattered).Distinct ∧ scattered.canonicalAt "" = .ok scatteredLaidOut ∧
      scatteredLaidOut.Position
        [("title", .null), ("Zone", .null), ("zone", .null), ("examples", .null)] ∧
      LaidOut [("title", .null), ("Zone", .null), ("zone", .null), ("examples", .null)] := by
  have hx : (Node.object scattered).Distinct := by decide
  have h : scattered.canonicalAt "" = .ok scatteredLaidOut := rfl
  have hp : scatteredLaidOut.Subschema
      [("title", .null), ("Zone", .null), ("zone", .null), ("examples", .null)] :=
    @Subschema.named _ _ "properties" "type" _ (by decide) rfl rfl
  exact ⟨hx, h, .single hp, laidOut_of_canonicalAt hx h (.single hp)⟩

end Object

end ConfigSchema
