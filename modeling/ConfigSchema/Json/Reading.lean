import ConfigSchema.Json.Readable
import ConfigSchema.Json.Steps

/-!
# What is read

Whatever the reader gives is `Readable`, with no key twice in an object and no deeper than the
reader allows: each step of the reader keeps what has been read so far fit for the place where it is
(`Reader.Step.fit`), so all of a reading does (`Node.readable_of_read`).
-/

namespace ConfigSchema

theorem readScalar_eq_ok {cs rest : List Char} {n : Node} (h : readScalar cs = .ok (n, rest)) :
    n.object? = none ∧ n.array? = none := by
  unfold readScalar at h
  split at h
  all_goals try split at h
  all_goals first
    | cases h
    | obtain ⟨_, -, he⟩ := Result.map_eq_ok_iff.mp h
      cases he
      exact ⟨rfl, rfl⟩

/-- What has been read so far in an open container is readable where it is. -/
def Frame.Fit (outside : Nat) : Frame → Prop
  | items done => (Node.array done).Readable outside
  | entries done _ => (Node.object done).Readable outside

namespace Reader

/-- Each open container is readable inside those below it. -/
def Fits : List Frame → Prop
  | [] => True
  | f :: below => f.Fit below.length ∧ Fits below

theorem length_le_of_fits {stack : List Frame} (h : Fits stack) : stack.length ≤ maxDepth := by
  cases stack with
  | nil => exact Nat.zero_le _
  | cons f below =>
    have hf := h.1
    cases f with
    | items done => exact (Node.readable_array_iff.mp hf).1
    | entries done key => exact (Node.readable_object_iff.mp hf).1

/-- What has been read so far is readable where it is. -/
def State.Fit : State → Prop
  | .value stack => Fits stack
  | .entry entries below => (Node.object entries).Readable below.length ∧ Fits below
  | .resume v stack => v.Readable stack.length ∧ Fits stack

theorem Step.fit {st st' : State} {cs cs' : List Char} (h : Step st cs st' cs') (hst : st.Fit) :
    st'.Fit := by
  cases h with
  | scalar _ _ _ hscalar =>
    obtain ⟨ho, ha⟩ := readScalar_eq_ok hscalar
    exact ⟨Node.readable_scalar ho ha (length_le_of_fits hst), hst⟩
  | emptyList hstack => exact ⟨.nil_array hstack, hst⟩
  | list hstack => exact ⟨.nil_array hstack, hst⟩
  | emptyObject hstack => exact ⟨.nil_object hstack, hst⟩
  | object hstack => exact ⟨.nil_object hstack, hst⟩
  | key => exact hst
  | closeList =>
    obtain ⟨hv, hdone, hbelow⟩ := hst
    exact ⟨(hv.cons hdone).reverse, hbelow⟩
  | nextItem =>
    obtain ⟨hv, hdone, hbelow⟩ := hst
    exact ⟨hv.cons hdone, hbelow⟩
  | closeObject =>
    obtain ⟨hv, hentries, hbelow⟩ := hst
    exact ⟨hv.insert hentries _, hbelow⟩
  | nextEntry =>
    obtain ⟨hv, hentries, hbelow⟩ := hst
    exact ⟨hv.insert hentries _, hbelow⟩

theorem readable_of_run {st : State} {cs : List Char} {r : Node × List Char}
    (h : run st cs = .ok r) : st.Fit → r.1.Readable 0 := by
  refine run_induct (motive := fun st _ => st.Fit → r.1.Readable 0) ?_ ?_ h
  · rintro v cs rfl hst
    exact hst.1
  · intro st cs st' cs' hstep _ ih hst
    exact ih (hstep.fit hst)

end Reader

namespace Node

theorem readable_of_read {cs : List Char} {r : Node × List Char} (h : read cs = .ok r) :
    r.1.Readable 0 :=
  @Reader.readable_of_run (.value []) cs r h trivial

end Node

end ConfigSchema
