/-!
# Results of a computation that may fail

A chain of computations has a result exactly if each link has one, and it fails as the first link
does that fails.
-/

namespace ConfigSchema

namespace Result

variable {ε ε' α β : Type} {r : Except ε α}

theorem ok_bind (a : α) (f : α → Except ε β) : (Except.ok a >>= f) = f a := rfl

theorem error_bind (e : ε) (f : α → Except ε β) :
    ((Except.error e : Except ε α) >>= f) = .error e := rfl

theorem bind_eq_ok_iff {f : α → Except ε β} {b : β} :
    (r >>= f) = .ok b ↔ ∃ a, r = .ok a ∧ f a = .ok b := by
  cases r <;> simp [bind, Except.bind]

theorem bind_congr {f g : α → Except ε β} (h : ∀ a, r = .ok a → f a = g a) :
    (r >>= f) = (r >>= g) := by
  cases r with
  | ok a => exact h a rfl
  | error e => rfl

theorem andThen_eq_ok_iff {r : Except ε Unit} {s : Except ε β} {b : β} :
    (r >>= fun _ => s) = .ok b ↔ r = .ok () ∧ s = .ok b := by
  cases r <;> simp [bind, Except.bind]

theorem bind_eq_error_iff {f : α → Except ε β} {e : ε} :
    (r >>= f) = .error e ↔ r = .error e ∨ ∃ a, r = .ok a ∧ f a = .error e := by
  cases r <;> simp [bind, Except.bind]

theorem andThen_eq_error_iff {r : Except ε Unit} {s : Except ε β} {e : ε} :
    (r >>= fun _ => s) = .error e ↔ r = .error e ∨ r = .ok () ∧ s = .error e := by
  cases r <;> simp [bind, Except.bind]

theorem map_eq_ok_iff {f : α → β} {b : β} : r.map f = .ok b ↔ ∃ a, r = .ok a ∧ f a = b := by
  cases r <;> simp [Except.map]

theorem map_eq_error_iff {f : α → β} {e : ε} : r.map f = .error e ↔ r = .error e := by
  cases r <;> simp [Except.map]

theorem map_map {γ : Type} (f : α → β) (g : β → γ) : (r.map f).map g = r.map fun a => g (f a) := by
  cases r <;> rfl

/-- What one reading of a result tells, another tells that depends on it. -/
theorem map_congr_of_map {γ : Type} {r' : Except ε α} {f : α → β} {g : α → γ}
    (hfg : ∀ a a', f a = f a' → g a = g a') (h : r.map f = r'.map f) : r.map g = r'.map g := by
  cases r with
  | error e =>
    cases r' with
    | error e' => cases h; rfl
    | ok a' => cases h
  | ok a =>
    cases r' with
    | error e' => cases h
    | ok a' => exact congrArg Except.ok (hfg a a' (Except.ok.inj h))

theorem mapError_ok (f : ε → ε') (a : α) : (Except.ok a).mapError f = .ok a := rfl

theorem mapError_error (f : ε → ε') (e : ε) :
    (Except.error e : Except ε α).mapError f = .error (f e) := rfl

theorem mapError_eq_ok_iff {f : ε → ε'} {a : α} : r.mapError f = .ok a ↔ r = .ok a := by
  cases r with
  | ok => rw [mapError_ok, Except.ok.injEq, Except.ok.injEq]
  | error => rw [mapError_error]; exact iff_of_false (by simp) (by simp)

theorem mapError_eq_error_iff {f : ε → ε'} {e : ε'} :
    r.mapError f = .error e ↔ ∃ e', r = .error e' ∧ f e' = e := by
  cases r with
  | ok => rw [mapError_ok]; simp
  | error => rw [mapError_error]; simp

/-- Each result of a list of computations is that of one of them. -/
theorem mem_of_mapM {f : α → Except ε β} {xs : List α} {ys : List β} (h : xs.mapM f = .ok ys)
    {y : β} (hy : y ∈ ys) : ∃ x ∈ xs, f x = .ok y := by
  induction xs generalizing ys with
  | nil => cases h; cases hy
  | cons x xs ih =>
    rw [List.mapM_cons, bind_eq_ok_iff] at h
    obtain ⟨z, hz, h⟩ := h
    obtain ⟨zs, hzs, h⟩ := bind_eq_ok_iff.mp h
    cases h
    rcases List.mem_cons.mp hy with rfl | hy
    · exact ⟨x, List.mem_cons_self .., hz⟩
    · obtain ⟨x', hx', h⟩ := ih hzs hy
      exact ⟨x', List.mem_cons_of_mem _ hx', h⟩

end Result

end ConfigSchema
