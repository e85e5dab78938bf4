import ConfigSchema.Docs.Section
import ConfigSchema.Schema.References

/-!
# The documentation page

Every definition in use gets one section. Those that a root property refers to come first, in
property order and under the name of the first such property; the others follow in the order of
their declaration, under their own names in kebab case.
-/

namespace ConfigSchema

/-- The reference documentation of a manifest. -/
structure Page where
  title : String
  sections : List DefinitionSection

namespace Page

def defaultTitle : String := "pixi.toml Schema Documentation"

def text (p : Page) : String :=
  "\n".intercalate (("# " ++ p.title ++ "\n") :: p.sections.flatMap DefinitionSection.lines) ++ "\n"

end Page

namespace Schema

/-- The sections for the root properties that are references, after those in `done`. -/
def primarySections (s : Schema) (done : List DefinitionSection) :
    Object → Except SchemaError (List DefinitionSection)
  | [] => .ok done
  | (property, field) :: rest => do
    match field.object?.bind Object.reference? with
    | none => s.primarySections done rest
    | some reference =>
      let (name, _) ← s.resolveReference reference
      if done.any (·.name == name) then s.primarySections done rest
      else
        let opened ← s.definitionSection name (Naming.external property field)
        s.primarySections (done ++ [opened]) rest

/-- The definitions in use that have no section in `done`. -/
def remaining (s : Schema) (done : List DefinitionSection) : List String :=
  let used := s.usedDefinitions
  s.definitions.keys.filter fun name => used.contains name && !done.any (·.name == name)

/-- The page of a schema. References that the page does not follow are not checked. -/
def page (s : Schema) (title : String) : Except SchemaError Page := do
  let primary ← s.primarySections [] s.root.properties
  let appendix ← (s.remaining primary).mapM fun name => s.definitionSection name (Naming.kebab name)
  return ⟨title, primary ++ appendix⟩

/-- The page of a schema all of whose references can be followed. -/
def checkedPage (s : Schema) (title : String) : Except SchemaError Page := do
  s.checkReferences
  s.page title

end Schema

end ConfigSchema
