import ConfigSchema.Json.Reading
import ConfigSchema.Schema.Basic

/-!
# From a text to a schema

A schema is picked out of a document by a filter, which must give exactly one value, and then by a
pointer; either may be absent. Filters are run by an engine, which is a parameter. What it gives is
text, which is read back, so it obeys the same limit of depth as a document and the same rules for
numbers. Whatever is read is `Readable`, and so are its parts; so what is selected from a text has no
key twice, as a `Schema` demands, and only the selected root decides what is loaded
(`Schema.load_eq_ok_iff`).
-/

namespace ConfigSchema

/-- How a schema is picked out of a document. -/
structure Selection where
  filter? : Option String := none
  pointer? : Option String := none

/-- The value at the start of a text. -/
def Node.parse (text : String) : Except SchemaError Node :=
  (ofStart text).mapError (.unreadable text)

/-- The value that a text is as a whole. -/
def Node.parseWhole (text : String) : Except SchemaError Node :=
  (ofText text).mapError fun fault => .notOneDocument text fault.stop

section

variable {text : String} {n : Node}

theorem Node.readable_of_parse (h : Node.parse text = .ok n) : n.Readable 0 := by
  obtain ⟨r, hr, rfl⟩ := Result.map_eq_ok_iff.mp (Result.mapError_eq_ok_iff.mp h)
  exact readable_of_read hr

theorem Node.readable_of_parseWhole (h : Node.parseWhole text = .ok n) : n.Readable 0 := by
  obtain ⟨⟨m, rest⟩, hr, h⟩ := Result.bind_eq_ok_iff.mp (Result.mapError_eq_ok_iff.mp h)
  have hm := readable_of_read hr
  dsimp only at h
  split at h
  · cases h; exact hm
  · cases h

end

namespace Filter

/-- What runs filters. A filter is refused, or it has outputs for a document one after the other:
the text of a value, or the reason of a failure. -/
abbrev Engine := String → Node → Except Refusal (List (Except String String))

/-- An output of a filter, read back. -/
def result : Except String String → Except SchemaError Node
  | .error reason => .error (.selection (.filterFails reason))
  | .ok text => Node.parseWhole text

/-- All values that a filter gives for a document. -/
def results (engine : Engine) (filter : String) (document : Node) :
    Except SchemaError (List Node) :=
  match engine filter document with
  | .error refusal => .error (.selection (.filterRefused filter refusal))
  | .ok outputs => outputs.mapM result

/-- What an engine gives is read back, so it is readable whatever the engine makes of a filter. -/
theorem readable_of_results {engine : Engine} {filter : String} {document : Node}
    {results : List Node} (h : Filter.results engine filter document = .ok results) :
    ∀ n ∈ results, n.Readable 0 := by
  unfold Filter.results at h
  split at h
  · cases h
  · intro n hn
    obtain ⟨output, -, houtput⟩ := Result.mem_of_mapM h hn
    unfold Filter.result at houtput
    split at houtput
    · cases houtput
    · exact Node.readable_of_parseWhole houtput

end Filter

namespace Selection

def filtered (engine : Filter.Engine) (s : Selection) (document : Node) :
    Except SchemaError Node :=
  match s.filter? with
  | none => .ok document
  | some filter => do
    match ← Filter.results engine filter document with
    | [n] => return n
    | results => throw (.selection (.notOneValue filter results.length))

def followed (s : Selection) (document : Node) : Except SchemaError Node :=
  match s.pointer? with
  | none => .ok document
  | some pointer =>
    match document.at? pointer with
    | some n => .ok n
    | none => .error (.selection (.nothingAt pointer))

def apply (engine : Filter.Engine) (s : Selection) (document : Node) : Except SchemaError Node := do
  s.followed (← s.filtered engine document)

/-- The root of the schema that is selected from a text. -/
def root (engine : Filter.Engine) (s : Selection) (text : String) : Except SchemaError Object := do
  (← s.apply engine (← Node.parse text)).root

variable {engine : Filter.Engine} {selection : Selection} {document n : Node}

theorem readable_of_filtered (hd : document.Readable 0)
    (h : selection.filtered engine document = .ok n) : n.Readable 0 := by
  unfold filtered at h
  split at h
  · cases h; exact hd
  · obtain ⟨results, hresults, h⟩ := Result.bind_eq_ok_iff.mp h
    split at h
    · cases h
      exact Filter.readable_of_results hresults n (List.mem_singleton_self n)
    · cases h

theorem readable_of_followed (hd : document.Readable 0) (h : selection.followed document = .ok n) :
    n.Readable 0 := by
  unfold followed at h
  split at h
  · cases h; exact hd
  · split at h
    · next hat => cases h; exact hd.at? hat
    · cases h

theorem readable_of_root {text : String} {root : Object}
    (h : selection.root engine text = .ok root) : (Node.object root).Readable 0 := by
  obtain ⟨document, hdocument, h⟩ := Result.bind_eq_ok_iff.mp h
  obtain ⟨n, hn, h⟩ := Result.bind_eq_ok_iff.mp h
  obtain ⟨filtered, hfiltered, hn⟩ := Result.bind_eq_ok_iff.mp hn
  have hd := Node.readable_of_parse hdocument
  have hn := readable_of_followed (readable_of_filtered hd hfiltered) hn
  cases n with
  | object => cases h; exact hn
  | _ => cases h

end Selection

namespace Schema

/-- The schema that is selected from a text. -/
def load (engine : Filter.Engine) (text : String) (selection : Selection) :
    Except SchemaError Schema :=
  match h : selection.root engine text with
  | .ok root => .ok ⟨root, (Selection.readable_of_root h).distinct⟩
  | .error e => .error e

variable {engine engine' : Filter.Engine} {text text' : String} {selection selection' : Selection}
  {s : Schema}

theorem load_eq_ok_iff :
    load engine text selection = .ok s ↔ selection.root engine text = .ok s.root := by
  unfold load
  split
  · next root h =>
    constructor
    · intro hs
      cases hs
      exact h
    · intro hroot
      cases s
      cases h.symm.trans hroot
      rfl
  · next e h => exact iff_of_false (fun hs => by cases hs) fun hroot => by cases h.symm.trans hroot

theorem load_eq_error_iff {e : SchemaError} :
    load engine text selection = .error e ↔ selection.root engine text = .error e := by
  unfold load
  split
  · next root h => exact iff_of_false (fun he => by cases he) fun he => by cases h.symm.trans he
  · next e' h =>
    constructor
    · intro he
      cases he
      exact h
    · intro he
      cases h.symm.trans he
      rfl

/-- Only the root that is selected matters. -/
theorem load_congr (h : selection.root engine text = selection'.root engine' text') :
    load engine text selection = load engine' text' selection' := by
  cases hload : load engine' text' selection' with
  | ok s => exact load_eq_ok_iff.mpr (h.trans (load_eq_ok_iff.mp hload))
  | error e => exact load_eq_error_iff.mpr (h.trans (load_eq_error_iff.mp hload))

/-- Every schema that is loaded from a text is readable, whatever is selected from the text. -/
theorem readable_of_load (h : load engine text selection = .ok s) : s.toNode.Readable 0 :=
  Selection.readable_of_root (load_eq_ok_iff.mp h)

end Schema

end ConfigSchema
