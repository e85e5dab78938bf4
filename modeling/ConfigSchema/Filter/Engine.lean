import ConfigSchema.Filter.Parser
import ConfigSchema.Input

/-!
# The engine for these filters

Filters are read, run on the values of documents, and their outputs printed. The reasons of refusals
and failures are left open.
-/

namespace ConfigSchema

namespace Filter

def engine : Engine := fun filter document =>
  match ofText? filter with
  | none => .error (.illFormed [])
  | some f => .ok <| (f.run (.ofNode document)).map fun
      | some v => .ok v.text
      | none => .error ""

end Filter

end ConfigSchema
