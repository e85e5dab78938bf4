import ConfigSchema.Result
import Mathlib.Data.List.Forall2

/-!
# Results of lists of computations

A list of computations has the results of each of them, and `FailsOnly r E`, that `r` can fail in
certain ways only, holds of a chain or a list if it holds of each link. `Alike r s` says that two
computations have the same result or both fail, whatever the failures are.
-/

namespace ConfigSchema

namespace Result

variable {ε ε' α β : Type} {r : Except ε α}

/-- A list of computations succeeds exactly if each of them does. -/
theorem mapM_eq_ok_iff {f : α → Except ε β} {xs : List α} {ys : List β} :
    xs.mapM f = .ok ys ↔ List.Forall₂ (fun x y => f x = .ok y) xs ys := by
  induction xs generalizing ys with
  | nil =>
    rw [List.mapM_nil, List.forall₂_nil_left_iff]
    exact ⟨fun h => by cases h; rfl, fun h => by rw [h]; rfl⟩
  | cons x xs ih =>
    rw [List.mapM_cons, bind_eq_ok_iff, List.forall₂_cons_left_iff]
    constructor
    · rintro ⟨y, hy, h⟩
      obtain ⟨ys', hys, h⟩ := bind_eq_ok_iff.mp h
      cases h
      exact ⟨y, ys', hy, ih.mp hys, rfl⟩
    · rintro ⟨y, ys', hy, hys, rfl⟩
      exact ⟨y, hy, bind_eq_ok_iff.mpr ⟨ys', ih.mpr hys, rfl⟩⟩

theorem mapM_congr {f g : α → Except ε β} {xs : List α} (h : ∀ x ∈ xs, f x = g x) :
    xs.mapM f = xs.mapM g := by
  induction xs with
  | nil => rfl
  | cons x xs ih =>
    obtain ⟨hx, hxs⟩ := List.forall_mem_cons.mp h
    rw [List.mapM_cons, List.mapM_cons, hx, ih hxs]

theorem map_mapM {γ : Type} (f : α → Except ε β) (g : β → γ) (xs : List α) :
    (xs.mapM f).map (List.map g) = xs.mapM fun x => (f x).map g := by
  induction xs with
  | nil => rfl
  | cons x xs ih =>
    rw [List.mapM_cons, List.mapM_cons, ← ih]
    cases f x with
    | error e => rfl
    | ok y => cases xs.mapM f <;> rfl

/-- If each of the computations leaves the state as it was, so does the list of them. -/
theorem run_mapM_of_restores {σ : Type} {state : σ} {f : α → StateT σ (Except ε) β}
    {g : α → Except ε β} {xs : List α}
    (h : ∀ x ∈ xs, f x state = (g x).map fun y => (y, state)) :
    (xs.mapM f).run state = (xs.mapM g).map fun ys => (ys, state) := by
  induction xs with
  | nil => rfl
  | cons x xs ih =>
    obtain ⟨hx, hxs⟩ := List.forall_mem_cons.mp h
    rw [List.mapM_cons, List.mapM_cons, StateT.run_bind]
    show (f x state >>= _) = _
    rw [hx]
    cases g x with
    | error e => rfl
    | ok y =>
      show ((xs.mapM f).run state >>= _) = _
      rw [ih hxs]
      cases xs.mapM g <;> rfl

theorem exists_of_mem {R : α → β → Prop} {xs : List α} {ys : List β} (h : List.Forall₂ R xs ys)
    {x : α} (hx : x ∈ xs) : ∃ y ∈ ys, R x y := by
  induction h with
  | nil => cases hx
  | @cons x' y xs ys hxy _ ih =>
    rcases List.mem_cons.mp hx with rfl | hx
    · exact ⟨y, List.mem_cons_self .., hxy⟩
    · obtain ⟨y', hy', h⟩ := ih hx
      exact ⟨y', List.mem_cons_of_mem _ hy', h⟩

/-- A list of checks fails as the first one does that fails. -/
theorem forM_eq_error_iff {f : α → Except ε Unit} {xs : List α} {e : ε} :
    forM xs f = .error e ↔ ∃ before x after, xs = before ++ x :: after ∧
      (∀ y ∈ before, f y = .ok ()) ∧ f x = .error e := by
  induction xs with
  | nil =>
    rw [List.forM_nil]
    refine iff_of_false (fun h => by cases h) ?_
    rintro ⟨before, x, after, h, -⟩
    cases before <;> cases h
  | cons x xs ih =>
    rw [List.forM_cons, andThen_eq_error_iff, ih]
    constructor
    · rintro (hx | ⟨hx, before, y, after, rfl, hbefore, hy⟩)
      · exact ⟨[], x, xs, rfl, List.forall_mem_nil _, hx⟩
      · exact ⟨x :: before, y, after, rfl, List.forall_mem_cons.mpr ⟨hx, hbefore⟩, hy⟩
    · rintro ⟨before, y, after, h, hbefore, hy⟩
      cases before with
      | nil => cases h; exact .inl hy
      | cons x' before =>
        cases h
        obtain ⟨hx, hbefore⟩ := List.forall_mem_cons.mp hbefore
        exact .inr ⟨hx, before, y, after, rfl, hbefore, hy⟩

/-- What one step keeps, a run of steps keeps. -/
theorem foldlM_induct {f : β → α → Except ε β} {P : β → Prop} {xs : List α} {b b' : β}
    (step : ∀ x ∈ xs, ∀ b b' : β, f b x = .ok b' → P b → P b') (h : xs.foldlM f b = .ok b')
    (hb : P b) : P b' := by
  induction xs generalizing b with
  | nil => cases h; exact hb
  | cons x xs ih =>
    rw [List.foldlM_cons, bind_eq_ok_iff] at h
    obtain ⟨b₁, h₁, h⟩ := h
    exact ih (fun y hy => step y (List.mem_cons_of_mem _ hy)) h
      (step x (List.mem_cons_self ..) b b₁ h₁ hb)

/-- A failure can only be one of `E`. -/
def FailsOnly (r : Except ε α) (E : ε → Prop) : Prop := ∀ e, r = .error e → E e

namespace FailsOnly

variable {E : ε → Prop}

theorem ok (a : α) : FailsOnly (.ok a) E := fun _ h => by cases h

theorem bind {f : α → Except ε β} (hr : FailsOnly r E) (hf : ∀ a, r = .ok a → FailsOnly (f a) E) :
    FailsOnly (r >>= f) E := by
  cases r with
  | ok a => exact hf a rfl
  | error e => intro e' he; cases he; exact hr e rfl

theorem map {f : α → β} (hr : FailsOnly r E) : FailsOnly (r.map f) E := by
  cases r with
  | ok a => exact .ok (f a)
  | error e => intro e' he; cases he; exact hr e rfl

theorem mapM {f : α → Except ε β} {xs : List α} (hf : ∀ x ∈ xs, FailsOnly (f x) E) :
    FailsOnly (xs.mapM f) E := by
  induction xs with
  | nil => exact .ok []
  | cons x xs ih =>
    obtain ⟨hx, hxs⟩ := List.forall_mem_cons.mp hf
    rw [List.mapM_cons]
    exact hx.bind fun y _ => (ih hxs).bind fun ys _ => .ok (y :: ys)

end FailsOnly

/-- The same result, or a failure each. -/
def Alike (r s : Except ε α) : Prop := ∀ a, r = .ok a ↔ s = .ok a

namespace Alike

variable {s : Except ε α}

theorem refl (r : Except ε α) : Alike r r := fun _ => Iff.rfl

theorem mapError {f g : ε → ε'} (h : Alike r s) : Alike (r.mapError f) (s.mapError g) := by
  intro a
  rw [mapError_eq_ok_iff, mapError_eq_ok_iff, h a]

theorem map {f : α → β} (h : Alike r s) : Alike (r.map f) (s.map f) := by
  intro b
  rw [map_eq_ok_iff, map_eq_ok_iff]
  exact exists_congr fun a => and_congr_left fun _ => h a

theorem bind {f g : α → Except ε β} (h : Alike r s) (hf : ∀ a, Alike (f a) (g a)) :
    Alike (r >>= f) (s >>= g) := by
  intro b
  rw [bind_eq_ok_iff, bind_eq_ok_iff]
  exact exists_congr fun a => and_congr (h a) (hf a b)

end Alike

end Result

end ConfigSchema
