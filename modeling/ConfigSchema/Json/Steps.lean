import ConfigSchema.Json.Reader

/-!
# The steps of the reader

The reader as a machine: a `State` says what comes next and which containers are open, and a `Step`
takes the text up to the next bracket, comma or key, or a whole scalar. A reading that does not fail
is a run of such steps that ends with a value outside of all containers (`run_eq_ok_cases`), so what
every step keeps holds of the reading (`run_induct`).
-/

namespace ConfigSchema

theorem skipBlanks_cons {c : Char} {cs : List Char} (hc : isBlank c = false) :
    skipBlanks (c :: cs) = c :: cs := by
  rw [skipBlanks, List.dropWhile_cons_of_neg (by simp [hc])]

namespace Reader

section

variable {stack below : List Frame} {cs cs' rest : List Char} {c : Char} {v n : Node}
  {done : List Node} {entries : Object} {key : String}

/-! ### One step of each function -/

theorem value_congr (h : skipBlanks cs = skipBlanks cs') : value stack cs = value stack cs' := by
  rw [value, value]
  generalize skipBlanks cs = xs at h ⊢
  generalize skipBlanks cs' = ys at h ⊢
  subst h
  rfl

theorem value_emptyList (h : skipBlanks cs = '[' :: rest) (hrest : skipBlanks rest = ']' :: cs')
    (hstack : stack.length < maxDepth) : value stack cs = resume (.array []) stack cs' := by
  rw [value]
  grind

theorem value_list (h : skipBlanks cs = '[' :: rest) (hrest : skipBlanks rest = c :: cs')
    (hc : c ≠ ']') (hstack : stack.length < maxDepth) :
    value stack cs = value (.items [] :: stack) (c :: cs') := by
  rw [value]
  grind

theorem value_emptyObject (h : skipBlanks cs = '{' :: rest)
    (hrest : skipBlanks rest = '}' :: cs') (hstack : stack.length < maxDepth) :
    value stack cs = resume (.object []) stack cs' := by
  rw [value]
  grind

theorem value_object (h : skipBlanks cs = '{' :: rest) (hrest : skipBlanks rest = c :: cs')
    (hc : c ≠ '}') (hstack : stack.length < maxDepth) :
    value stack cs = entry [] stack (c :: cs') := by
  rw [value]
  grind

theorem value_scalar (h : skipBlanks cs = c :: cs') (hlist : c ≠ '[') (hobject : c ≠ '{')
    (hscalar : readScalar (c :: cs') = .ok (n, rest)) : value stack cs = resume n stack rest := by
  rw [value]
  grind

theorem entry_key (h : readKey below cs = .ok (key, rest)) :
    entry entries below cs = value (.entries entries key :: below) rest := by
  rw [entry]
  grind

theorem resume_items_close (h : skipBlanks cs = ']' :: rest) :
    resume v (.items done :: below) cs = resume (.array (v :: done).reverse) below rest := by
  rw [resume]
  grind

theorem resume_items_next (h : skipBlanks cs = ',' :: rest)
    (hrest : skipBlanks rest = c :: cs') (hc : c ≠ ']') :
    resume v (.items done :: below) cs = value (.items (v :: done) :: below) (c :: cs') := by
  rw [resume]
  grind

theorem resume_entries_close (h : skipBlanks cs = '}' :: rest) :
    resume v (.entries entries key :: below) cs =
      resume (.object (Fields.insert entries key v)) below rest := by
  rw [resume]
  grind

theorem resume_entries_next (h : skipBlanks cs = ',' :: rest)
    (hrest : skipBlanks rest = c :: cs') (hc : c ≠ '}') :
    resume v (.entries entries key :: below) cs =
      entry (Fields.insert entries key v) below (c :: cs') := by
  rw [resume]
  grind

end

/-! ### The reader as a machine -/

/-- What the reader is about to do. -/
inductive State where
  /-- It reads a value inside the containers of `stack`. -/
  | value (stack : List Frame)
  /-- It reads an entry of the object that lies on `below`. -/
  | entry (entries : Object) (below : List Frame)
  /-- It puts a value into the innermost container. -/
  | resume (v : Node) (stack : List Frame)

def run : State → List Char → Except Fault (Node × List Char)
  | .value stack => value stack
  | .entry entries below => entry entries below
  | .resume v stack => resume v stack

/-- From one state and what is left of the text to the next. -/
inductive Step : State → List Char → State → List Char → Prop
  | scalar {stack : List Frame} {cs cs' rest : List Char} {c : Char} {n : Node}
      (h : skipBlanks cs = c :: cs') (hlist : c ≠ '[') (hobject : c ≠ '{')
      (hscalar : readScalar (c :: cs') = .ok (n, rest)) :
      Step (.value stack) cs (.resume n stack) rest
  | emptyList {stack : List Frame} {cs cs' rest : List Char} (hstack : stack.length < maxDepth)
      (h : skipBlanks cs = '[' :: rest) (hrest : skipBlanks rest = ']' :: cs') :
      Step (.value stack) cs (.resume (.array []) stack) cs'
  | list {stack : List Frame} {cs cs' rest : List Char} {c : Char}
      (hstack : stack.length < maxDepth) (h : skipBlanks cs = '[' :: rest)
      (hrest : skipBlanks rest = c :: cs') (hc : c ≠ ']') :
      Step (.value stack) cs (.value (.items [] :: stack)) (c :: cs')
  | emptyObject {stack : List Frame} {cs cs' rest : List Char} (hstack : stack.length < maxDepth)
      (h : skipBlanks cs = '{' :: rest) (hrest : skipBlanks rest = '}' :: cs') :
      Step (.value stack) cs (.resume (.object []) stack) cs'
  | object {stack : List Frame} {cs cs' rest : List Char} {c : Char}
      (hstack : stack.length < maxDepth) (h : skipBlanks cs = '{' :: rest)
      (hrest : skipBlanks rest = c :: cs') (hc : c ≠ '}') :
      Step (.value stack) cs (.entry [] stack) (c :: cs')
  | key {entries : Object} {below : List Frame} {cs rest : List Char} {key : String}
      (h : readKey below cs = .ok (key, rest)) :
      Step (.entry entries below) cs (.value (.entries entries key :: below)) rest
  | closeList {v : Node} {done : List Node} {below : List Frame} {cs rest : List Char}
      (h : skipBlanks cs = ']' :: rest) :
      Step (.resume v (.items done :: below)) cs (.resume (.array (v :: done).reverse) below) rest
  | nextItem {v : Node} {done : List Node} {below : List Frame} {cs cs' rest : List Char} {c : Char}
      (h : skipBlanks cs = ',' :: rest) (hrest : skipBlanks rest = c :: cs') (hc : c ≠ ']') :
      Step (.resume v (.items done :: below)) cs (.value (.items (v :: done) :: below)) (c :: cs')
  | closeObject {v : Node} {entries : Object} {key : String} {below : List Frame}
      {cs rest : List Char} (h : skipBlanks cs = '}' :: rest) :
      Step (.resume v (.entries entries key :: below)) cs
        (.resume (.object (Fields.insert entries key v)) below) rest
  | nextEntry {v : Node} {entries : Object} {key : String} {below : List Frame}
      {cs cs' rest : List Char} {c : Char} (h : skipBlanks cs = ',' :: rest)
      (hrest : skipBlanks rest = c :: cs') (hc : c ≠ '}') :
      Step (.resume v (.entries entries key :: below)) cs
        (.entry (Fields.insert entries key v) below) (c :: cs')

variable {st st' : State} {cs cs' : List Char} {r : Node × List Char}

theorem Step.run_eq (h : Step st cs st' cs') : run st cs = run st' cs' := by
  cases h with
  | scalar h hlist hobject hscalar => exact value_scalar h hlist hobject hscalar
  | emptyList hstack h hrest => exact value_emptyList h hrest hstack
  | list hstack h hrest hc => exact value_list h hrest hc hstack
  | emptyObject hstack h hrest => exact value_emptyObject h hrest hstack
  | object hstack h hrest hc => exact value_object h hrest hc hstack
  | key h => exact entry_key h
  | closeList h => exact resume_items_close h
  | nextItem h hrest hc => exact resume_items_next h hrest hc
  | closeObject h => exact resume_entries_close h
  | nextEntry h hrest hc => exact resume_entries_next h hrest hc

theorem Step.length_lt (h : Step st cs st' cs') : cs'.length < cs.length := by
  cases h with
  | scalar h _ _ hscalar =>
    exact Nat.lt_of_lt_of_le (length_readScalar hscalar) (length_of_skipBlanks h)
  | emptyList _ h hrest =>
    exact Nat.lt_trans (length_of_skipBlanks_cons hrest) (length_of_skipBlanks_cons h)
  | list _ h hrest =>
    exact Nat.lt_of_le_of_lt (length_of_skipBlanks hrest) (length_of_skipBlanks_cons h)
  | emptyObject _ h hrest =>
    exact Nat.lt_trans (length_of_skipBlanks_cons hrest) (length_of_skipBlanks_cons h)
  | object _ h hrest =>
    exact Nat.lt_of_le_of_lt (length_of_skipBlanks hrest) (length_of_skipBlanks_cons h)
  | key h => exact length_readKey h
  | closeList h => exact length_of_skipBlanks_cons h
  | nextItem h hrest =>
    exact Nat.lt_of_le_of_lt (length_of_skipBlanks hrest) (length_of_skipBlanks_cons h)
  | closeObject h => exact length_of_skipBlanks_cons h
  | nextEntry h hrest =>
    exact Nat.lt_of_le_of_lt (length_of_skipBlanks hrest) (length_of_skipBlanks_cons h)

/-! ### A reading is a run of steps -/

theorem exists_step_of_value {stack : List Frame} (h : value stack cs = .ok r) :
    ∃ st' cs', Step (.value stack) cs st' cs' := by
  rw [value] at h
  split at h
  · next rest hcs =>
    split at h
    · next hstack =>
      split at h
      · cases h
      · next hrest => exact ⟨_, _, .emptyList hstack hcs hrest⟩
      · next c cs' hc hrest =>
        exact ⟨_, _, .list hstack hcs hrest hc⟩
    · cases h
  · next rest hcs =>
    split at h
    · next hstack =>
      split at h
      · cases h
      · next hrest => exact ⟨_, _, .emptyObject hstack hcs hrest⟩
      · next c cs' hc hrest =>
        exact ⟨_, _, .object hstack hcs hrest hc⟩
    · cases h
  · next hlist hobject =>
    split at h
    · cases h
    · next n rest hscalar =>
      cases hcs : skipBlanks cs with
      | nil =>
        rw [hcs] at hscalar
        cases hscalar
      | cons c cs' =>
        rw [hcs] at hscalar
        refine ⟨_, _, .scalar hcs ?_ ?_ hscalar⟩
        · rintro rfl
          exact hlist cs' hcs
        · rintro rfl
          exact hobject cs' hcs

theorem exists_step_of_resume {v : Node} {f : Frame} {below : List Frame}
    (h : resume v (f :: below) cs = .ok r) :
    ∃ st' cs', Step (.resume v (f :: below)) cs st' cs' := by
  cases f with
  | items done =>
    rw [resume] at h
    split at h
    · cases h
    · next hcs => exact ⟨_, _, .closeList hcs⟩
    · next hcs =>
      split at h
      · cases h
      · cases h
      · next hc hrest => exact ⟨_, _, .nextItem hcs hrest hc⟩
    · cases h
  | entries entries key =>
    rw [resume] at h
    split at h
    · cases h
    · next hcs => exact ⟨_, _, .closeObject hcs⟩
    · next hcs =>
      split at h
      · cases h
      · cases h
      · next hc hrest => exact ⟨_, _, .nextEntry hcs hrest hc⟩
    · cases h

/-- A reading that does not fail is over or makes a step. -/
theorem run_eq_ok_cases (h : run st cs = .ok r) : (∃ v, st = .resume v [] ∧ r = (v, cs)) ∨
    ∃ st' cs', Step st cs st' cs' ∧ run st' cs' = .ok r := by
  suffices (∃ v, st = .resume v [] ∧ r = (v, cs)) ∨ ∃ st' cs', Step st cs st' cs' from
    this.imp_right fun ⟨st', cs', hstep⟩ => ⟨st', cs', hstep, hstep.run_eq ▸ h⟩
  cases st with
  | value stack => exact .inr (exists_step_of_value h)
  | entry entries below =>
    cases hkey : readKey below cs with
    | error fault =>
      rw [run, entry] at h
      grind
    | ok k => exact .inr ⟨_, _, .key hkey⟩
  | resume v stack =>
    cases stack with
    | nil =>
      rw [run, resume] at h
      exact .inl ⟨v, rfl, (Except.ok.inj h).symm⟩
    | cons f below => exact .inr (exists_step_of_resume h)

/-- What holds at the end of a reading, and before a step if it holds after it, holds at the
beginning. -/
theorem run_induct {motive : State → List Char → Prop}
    (done : ∀ v cs, r = (v, cs) → motive (.resume v []) cs)
    (step : ∀ st cs st' cs', Step st cs st' cs' → run st' cs' = .ok r → motive st' cs' →
      motive st cs) (h : run st cs = .ok r) : motive st cs := by
  induction hsize : cs.length using Nat.strongRecOn generalizing st cs with
  | ind size ih =>
    rcases run_eq_ok_cases h with ⟨v, rfl, hr⟩ | ⟨st', cs', hstep, h⟩
    · exact done v cs hr
    · exact step st cs st' cs' hstep h (ih _ (hsize ▸ hstep.length_lt) h rfl)

end Reader

end ConfigSchema
