import ConfigSchema.Filter.Engine
import ConfigSchema.Json.Reading
import ConfigSchema.Proofs.Json.RoundTrip

/-!
# Selection by a filter that changes nothing

What an engine gives is read back. The text of a document is read as the document again, so an
engine that gives the document itself for a filter selects what no filter selects
(`Schema.load_of_passes`). The filter `.` is meant to be of that kind, and the engine for these
filters takes it so (`Filter.passes_point`).
-/

namespace ConfigSchema

namespace Filter

variable {engine : Engine} {filter : String} {n : Node}

/-- There is one output for the document, which is its text. -/
def Engine.Passes (engine : Engine) (filter : String) (n : Node) : Prop :=
  engine filter n = .ok [.ok n.compact]

theorem result_compact (hn : n.Readable 0) : result (.ok n.compact) = .ok n :=
  Node.parseWhole_compact hn

theorem results_of_passes (h : engine.Passes filter n) (hn : n.Readable 0) :
    results engine filter n = .ok [n] := by
  have hresults : results engine filter n = [.ok n.compact].mapM result := by rw [results, h]
  rw [hresults, List.mapM_cons, result_compact hn]
  rfl

end Filter

/-- A filter that gives the document back has no influence on what is loaded from a text. -/
theorem Schema.load_of_passes {engine : Filter.Engine} {filter text : String}
    (h : ∀ n, Node.parse text = .ok n → engine.Passes filter n) (pointer? : Option String) :
    Schema.load engine text ⟨some filter, pointer?⟩ =
      Schema.load engine text ⟨none, pointer?⟩ := by
  refine load_congr ?_
  cases hparse : Node.parse text with
  | error e => rw [Selection.root, Selection.root, hparse]; rfl
  | ok n =>
    have hresults := Filter.results_of_passes (h n hparse) (Node.readable_of_parse hparse)
    have hfiltered : Selection.filtered engine ⟨some filter, pointer?⟩ n = .ok n := by
      show (Filter.results engine filter n >>= _) = _
      rw [hresults]
      rfl
    rw [Selection.root, Selection.root, hparse]
    show (Selection.apply _ _ n >>= _) = (Selection.apply _ _ n >>= _)
    rw [Selection.apply, hfiltered]
    rfl

/-! ### The filter that is a point -/

namespace Token

variable {c : Char} {cs : List Char}

theorem skip_cons (hblank : isWhiteSpace c = false) (hmark : c ≠ '#') :
    skip (c :: cs) = c :: cs := by
  have hdrop : (c :: cs).dropWhile isWhiteSpace = c :: cs :=
    List.dropWhile_cons_of_neg (by simp [hblank])
  rw [skip]
  split
  · next h =>
    rw [hdrop] at h
    cases h
    exact absurd rfl hmark
  · exact hdrop

theorem all?_nil : all? [] = some [] := by
  have hskip : skip [] = [] := by
    rw [skip]
    rfl
  rw [all?]
  split
  · rfl
  · next h =>
    rw [hskip] at h
    cases h

theorem all?_cons {rest : List Char} {t : Token} (hblank : isWhiteSpace c = false)
    (hmark : c ≠ '#') (h : read? (c :: cs) = some (t, rest)) :
    all? (c :: cs) = (all? rest).map (t :: ·) := by
  have hskip := @skip_cons c cs hblank hmark
  rw [all?]
  split
  · next hcs =>
    rw [hskip] at hcs
    cases hcs
  · next hcs =>
    rw [hskip] at hcs
    cases hcs
    split
    · next hnone =>
      rw [h] at hnone
      cases hnone
    · next hsome =>
      rw [h] at hsome
      cases hsome
      rfl

end Token

namespace Filter

theorem term_point : term [.point] = some ⟨((identity, []), []), Nat.zero_lt_one⟩ := by
  rw [term.eq_def]

theorem accesses_nil : accesses [] = some ⟨([], []), Nat.le_refl 0⟩ := by
  rw [accesses.eq_def]

theorem unary_point : unary [.point] = some ⟨(identity, []), Nat.zero_lt_one⟩ := by
  rw [unary.eq_def]
  simp only [term_point, Option.bind_eq_bind, Option.bind_some, marks, accesses_nil]
  rfl

theorem further_nil (op : Operator) (tighter : List Operator) (left : Filter) :
    further op tighter left [] = some ⟨(left, []), Nat.le_refl 0⟩ := by
  rw [further]
  rfl

/-- No operator follows the point, however tight it binds. -/
theorem expression_point (ops : List Operator) :
    expression ops [.point] = some ⟨(identity, []), Nat.zero_lt_one⟩ := by
  induction ops with
  | nil => rw [expression, unary_point]
  | cons op ops ih =>
    rw [expression, ih]
    simp only [Option.bind_eq_bind, Option.bind_some, further_nil]
    rfl

theorem ofText?_point : ofText? "." = some identity := by
  have htokens : Token.all? ".".toList = some [.point] := by
    show Token.all? ['.'] = _
    rw [Token.all?_cons rfl (by decide) rfl, Token.all?_nil]
    rfl
  rw [ofText?, htokens]
  show (expression operators [.point] >>= _) = _
  rw [expression_point]
  rfl

/-- The engine for these filters gives every document back for `.`. -/
theorem passes_point (n : Node) : Filter.engine.Passes "." n := by
  have hrun : engine "." n = .ok [.ok (Value.ofNode n).text] := by
    rw [engine, ofText?_point]
    simp only [run, List.map_cons, List.map_nil]
  rw [Engine.Passes, hrun, Value.text_ofNode]

end Filter

/-- An engine that takes the filter `.` for the document itself changes nothing by it: not the
schema that is loaded from a text, with its keys in their order, its texts and its numbers, and not
the error if there is none. -/
theorem Schema.load_filter_point {engine : Filter.Engine}
    (h : ∀ n : Node, n.Readable 0 → engine.Passes "." n) (text : String)
    (pointer? : Option String) :
    Schema.load engine text ⟨some ".", pointer?⟩ = Schema.load engine text ⟨none, pointer?⟩ :=
  load_of_passes (fun n hn => h n (Node.readable_of_parse hn)) pointer?

/-- A schema inside of a document. -/
def nested : Node := .object [
  ("versions", .array [.null, .string "1.0"]),
  ("schema", .object [("title", .string "a \"b\"\n"), ("$defs", .object [])])]

theorem Schema.load_filter_point_nested :
    (∀ n : Node, n.Readable 0 → Filter.engine.Passes "." n) ∧
      Schema.load Filter.engine nested.pretty ⟨some ".", some "/schema"⟩ =
        .ok ⟨[("title", .string "a \"b\"\n"), ("$defs", .object [])], by decide⟩ := by
  have hpasses : ∀ n : Node, n.Readable 0 → Filter.engine.Passes "." n :=
    fun n _ => Filter.passes_point n
  refine ⟨hpasses, ?_⟩
  rw [load_filter_point hpasses]
  refine Schema.load_eq_ok_iff.mpr ?_
  rw [Selection.root, Node.parse_pretty ⟨by decide, by decide⟩]
  rfl

end ConfigSchema
