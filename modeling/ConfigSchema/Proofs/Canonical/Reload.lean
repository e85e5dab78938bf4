import ConfigSchema.Proofs.Canonical.Growth
import ConfigSchema.Json.Reading
import ConfigSchema.Proofs.Json.RoundTrip

/-!
# The canonical text is a schema again

The canonical form of what can be read can be read (`Readable.canonical`): keys stay distinct, and
nothing comes to stand deeper than it did. So the printed canonical form of a loaded schema loads,
and gives back that canonical form (`Schema.load_pretty_canonical`).
-/

namespace ConfigSchema

namespace Node

variable {outside : Nat} {n m : Node} {role : Role}

theorem Readable.canonical (hn : n.Readable outside) (h : n.canonical role = .ok m) :
    m.Readable outside := by
  obtain ⟨hroom, hwithin⟩ := readable_iff.mp hn
  exact readable_iff.mpr ⟨hroom, hwithin.canonical h⟩

end Node

namespace Schema

theorem load_pretty {s : Schema} (hs : s.toNode.Readable 0) (engine : Filter.Engine) :
    load engine s.toNode.pretty {} = .ok s := by
  refine load_eq_ok_iff.mpr ?_
  rw [Selection.root, Node.parse_pretty hs]
  rfl

/-- The text of the canonical form of a loaded schema can be loaded, and what comes back is the
canonical form, with the same keys in the same order, the same texts and the same numbers. The
schema may have been selected by any filter, whatever the engine makes of it. -/
theorem load_pretty_canonical {engine : Filter.Engine} {text : String} {selection : Selection}
    {s : Schema} {n : Node} (hs : load engine text selection = .ok s) (hn : s.canonical = .ok n) :
    ∃ s', load engine n.pretty {} = .ok s' ∧ s'.toNode = n := by
  obtain ⟨o, ho, rfl⟩ := canonical_eq_ok_iff.mp hn
  have hs : (Node.object s.root).Readable 0 := readable_of_load hs
  have hform : (Node.object o).Readable 0 := hs.canonical (Node.canonical_root ho)
  exact ⟨⟨o, hform.distinct⟩, @load_pretty ⟨o, hform.distinct⟩ hform engine, rfl⟩

/-- The only variant that is not null brings in a title with quotes and a line break. -/
def quotedTitle : Schema := ⟨[
  ("default", .number (.negative 6)),
  ("anyOf", .array [.object [("type", .string "null")],
    .object [("title", .string "a \"b\"\nc"), ("examples", .array [.array [], .object []])]])],
  by decide⟩

/-- The canonical form of `quotedTitle`. -/
def inlinedTitle : Object := [
  ("title", .string "a \"b\"\nc"),
  ("default", .number (.negative 6)),
  ("examples", .array [.array [], .object []])]

/-- An engine that knows one filter, which takes what an entry holds. -/
def firstSchema : Filter.Engine
  | "first(.schema)", .object fs => .ok [.ok ((Fields.get? fs "schema").getD .null).compact]
  | _, _ => .error (.illFormed [])

theorem load_firstSchema {s : Schema} (h : (Node.object [("schema", s.toNode)]).Readable 0)
    (hs : s.toNode.Readable 0) :
    load firstSchema (Node.object [("schema", s.toNode)]).pretty ⟨some "first(.schema)", none⟩ =
      .ok s := by
  have hresults : Filter.results firstSchema "first(.schema)" (.object [("schema", s.toNode)]) =
      .ok [s.toNode] := by
    show [.ok s.toNode.compact].mapM Filter.result = _
    rw [List.mapM_cons, Filter.result, Node.parseWhole_compact hs]
    rfl
  refine load_eq_ok_iff.mpr ?_
  rw [Selection.root, Node.parse_pretty h]
  show ((Filter.results _ _ _ >>= _) >>= _) >>= _ = _
  rw [hresults]
  rfl

theorem load_pretty_canonical_inlinedTitle :
    load firstSchema (Node.object [("schema", quotedTitle.toNode)]).pretty
        ⟨some "first(.schema)", none⟩ = .ok quotedTitle ∧
      quotedTitle.canonical = .ok (.object inlinedTitle) ∧
      ∃ s', load firstSchema (Node.object inlinedTitle).pretty {} = .ok s' ∧
        s'.toNode = .object inlinedTitle := by
  have hs := @load_firstSchema quotedTitle ⟨by decide, by decide⟩ ⟨by decide, by decide⟩
  have hn : quotedTitle.canonical = .ok (.object inlinedTitle) := rfl
  exact ⟨hs, hn, load_pretty_canonical hs hn⟩

end Schema

end ConfigSchema
