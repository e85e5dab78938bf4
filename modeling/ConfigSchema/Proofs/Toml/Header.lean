import ConfigSchema.Docs.Naming
import ConfigSchema.Proofs.Toml.Grammar
import Mathlib.Data.List.TakeWhile

/-!
# Headers without quotes

Whatever is written for a key is longer than the key, unless it is a bare one. So names that are
only joined by points, in brackets, are a header for these names exactly if each of them is a bare
key (`tableHeader_path_iff`); any other name would need quotes, for which there is no room.
-/

namespace ConfigSchema

namespace Naming

theorem path_cons {key : String} {keys : List String} (h : keys ≠ []) :
    path (key :: keys) = key ++ "." ++ path keys :=
  String.intercalate_cons_of_ne_nil h

end Naming

namespace Toml

open Naming

variable {w cs : List Char} {key : String} {keys : List String}

/-! ### Quotes take room -/

theorem Content.length_le (h : Content w cs) : cs.length ≤ w.length := by
  induction h with
  | nil => exact Nat.le_refl 0
  | cons hc _ ih =>
    obtain ⟨d, ds, rfl, -⟩ := hc.exists_cons
    rw [List.length_append, List.length_cons, List.length_cons]
    omega

theorem SimpleKey.length_le (h : SimpleKey w key) : key.toList.length ≤ w.length := by
  cases h with
  | bare => exact Nat.le_refl _
  | basic h =>
    obtain ⟨content, hcontent, rfl⟩ := h
    rw [List.length_cons, List.length_append]
    exact Nat.le_succ_of_le (Nat.le_add_right_of_le hcontent.length_le)
  | literal =>
    rw [List.length_cons, List.length_append]
    exact Nat.le_succ_of_le (Nat.le_add_right _ _)

theorem SimpleKey.isBareKey (h : SimpleKey w key) (hlength : w.length ≤ key.toList.length) :
    IsBareKey key := by
  cases h with
  | bare h => exact h
  | basic h =>
    obtain ⟨content, hcontent, rfl⟩ := h
    have := hcontent.length_le
    rw [List.length_cons, List.length_append] at hlength
    omega
  | literal =>
    rw [List.length_cons, List.length_append] at hlength
    omega

theorem DottedKey.ne_nil (h : DottedKey w keys) : keys ≠ [] := by
  cases h <;> exact List.cons_ne_nil _ _

theorem length_path_cons (h : keys ≠ []) : (path (key :: keys)).toList.length =
    key.toList.length + 1 + (path keys).toList.length := by
  rw [path_cons h, String.toList_append, String.toList_append, List.length_append,
    List.length_append]
  rfl

theorem DottedKey.length_path_le (h : DottedKey w keys) :
    (path keys).toList.length ≤ w.length := by
  induction h with
  | single h =>
    rw [path, String.intercalate_singleton]
    exact h.length_le
  | cons h _ _ hkeys ih =>
    have := h.length_le
    rw [length_path_cons hkeys.ne_nil]
    simp only [List.length_append, List.length_cons]
    omega

/-- A dotted key without room for quotes has none. -/
theorem DottedKey.forall_isBareKey (h : DottedKey w keys)
    (hlength : w.length ≤ (path keys).toList.length) : ∀ key ∈ keys, IsBareKey key := by
  induction h with
  | single h =>
    rw [path, String.intercalate_singleton] at hlength
    exact List.forall_mem_singleton.mpr (h.isBareKey hlength)
  | cons h _ _ hkeys ih =>
    have hkey := h.length_le
    have hpath := hkeys.length_path_le
    rw [length_path_cons hkeys.ne_nil] at hlength
    simp only [List.length_append, List.length_cons] at hlength
    exact List.forall_mem_cons.mpr ⟨h.isBareKey (by omega), ih (by omega)⟩

/-! ### Bare keys need no quotes -/

theorem dottedKey_path (hkeys : keys ≠ []) (h : ∀ key ∈ keys, IsBareKey key) :
    DottedKey (path keys).toList keys := by
  induction keys with
  | nil => exact absurd rfl hkeys
  | cons key keys ih =>
    obtain ⟨hkey, h⟩ := List.forall_mem_cons.mp h
    by_cases hnil : keys = []
    · rw [hnil, path, String.intercalate_singleton]
      exact .single (.bare hkey)
    · rw [path_cons hnil, String.toList_append, String.toList_append, List.append_assoc]
      have hblank : ∀ c ∈ ([] : List Char), IsBlank c := fun _ h => absurd h List.not_mem_nil
      exact .cons (.bare hkey) hblank hblank (ih hnil h)

theorem not_mem_path (h : ∀ key ∈ keys, IsBareKey key) {c : Char} (hc : ¬ IsBareChar c)
    (hpoint : c ≠ '.') : c ∉ (path keys).toList := by
  induction keys with
  | nil => exact List.not_mem_nil
  | cons key keys ih =>
    obtain ⟨hkey, h⟩ := List.forall_mem_cons.mp h
    have hkey : c ∉ key.toList := fun hmem => hc (hkey.2 c hmem)
    by_cases hnil : keys = []
    · rwa [hnil, path, String.intercalate_singleton]
    · rw [path_cons hnil]
      simpa [hpoint] using ⟨hkey, ih h⟩

/-! ### The line of a header -/

/-- The part of a text in front of its first line break. -/
def line (cs : List Char) : List Char := cs.takeWhile (· ≠ '\n')

theorem line_of_not_mem (h : '\n' ∉ cs) : line cs = cs := by
  rw [line, List.takeWhile_eq_self_iff]
  intro c hc
  exact decide_eq_true fun heq => h (heq ▸ hc)

theorem length_line_le : (line cs).length ≤ cs.length := (List.takeWhile_prefix _).length_le

theorem line_append (rest : List Char) : line (cs ++ '\n' :: rest) = line cs := by
  induction cs with
  | nil => rfl
  | cons c cs ih =>
    unfold line at *
    rw [List.cons_append, List.takeWhile_cons, List.takeWhile_cons, ih]

/-- Names joined by points, in brackets, are a header for these names only if they need no
quotes. -/
theorem tableHeader_path_iff (hkeys : keys ≠ []) :
    TableHeader (line ('[' :: ((path keys).toList ++ [']']))) keys ↔
      ∀ key ∈ keys, IsBareKey key := by
  constructor
  · rintro ⟨before, written, after, -, -, hwritten, hline⟩
    have hlength := @length_line_le ('[' :: ((path keys).toList ++ [']']))
    rw [hline] at hlength
    simp only [List.length_cons, List.length_append] at hlength
    exact hwritten.forall_isBareKey (by omega)
  · intro h
    have hbreak : '\n' ∉ '[' :: ((path keys).toList ++ [']']) := by
      simpa using not_mem_path h (by decide) (by decide)
    rw [line_of_not_mem hbreak]
    exact ⟨[], _, [], by simp, by simp, dottedKey_path hkeys h, rfl⟩

end Toml

end ConfigSchema
