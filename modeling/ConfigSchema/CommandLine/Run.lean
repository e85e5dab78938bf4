import ConfigSchema.Canonical.Form
import ConfigSchema.CommandLine.Arguments
import ConfigSchema.CommandLine.Directory
import ConfigSchema.Schema.Identity

/-!
# A run of the program

`Options.result` turns the text of the input into the text of the output. `run` is a whole run on a
directory: it reads the input, and only when there is a result does it write, either to standard
output or to a file whose directories it makes as needed.
-/

namespace ConfigSchema

namespace CommandLine

/-- What the program was about to do when it failed. -/
inductive Task where
  | readStandardInput
  | readInput (path : String)
  | loadSchema (input : String)
  | checkReferences
  | renderDocs
  | normalize
  | makeDirectory (path : String)
  | writeOutput (path : String)
deriving DecidableEq, Repr

def Task.wording : Task → String
  | readStandardInput => "failed to read schema from stdin"
  | readInput path => "failed to read schema file `" ++ path ++ "`"
  | loadSchema input => "failed to load schema from `" ++ input ++ "`"
  | checkReferences => "schema references do not resolve"
  | renderDocs => "failed to render documentation"
  | normalize => "failed to normalize schema"
  | makeDirectory path => "failed to create `" ++ path ++ "`"
  | writeOutput path => "failed to write `" ++ path ++ "`"

/-- Why a task failed. -/
inductive Cause where
  | schema (error : SchemaError)
  | system (fault : SystemFault)
deriving DecidableEq, Repr

def Cause.wording : Cause → String
  | schema error => error.message
  | system fault => fault.message

structure Failure where
  task : Task
  cause : Cause
deriving DecidableEq, Repr

/-- A text with every line indented. -/
def indented (text : String) : String :=
  String.ofList ([' ', ' ', ' ', ' '] ++
    text.toList.flatMap fun c => if c = '\n' then ['\n', ' ', ' ', ' ', ' '] else [c])

/-- What the program says about a failure. -/
def Failure.report (f : Failure) : String :=
  "Error: " ++ f.task.wording ++ "\n\nCaused by:\n" ++ indented f.cause.wording ++ "\n"

/-- Blames a task for an error of the schema. -/
def blame {α : Type} (task : Task) (r : Except SchemaError α) : Except Failure α :=
  r.mapError fun e => ⟨task, .schema e⟩

/-- Blames a task for a fault of the system. -/
def blameSystem {α : Type} (task : Task) (r : Except SystemFault α) : Except Failure α :=
  r.mapError fun e => ⟨task, .system e⟩

namespace Options

/-- The canonical form of a schema, with the version stamped on it when one is given. -/
def canonical (o : Options) (schema : Schema) : Except SchemaError Node :=
  match o.value? .version with
  | some version => do (← schema.toNode.stamp version).canonicalSchema
  | none => schema.canonical

/-- The text of the output for a text of the input. -/
def result (engine : Filter.Engine) (o : Options) (source : String) : Except Failure String := do
  let schema ← blame (.loadSchema o.input) (Schema.load engine source o.selection)
  blame .checkReferences schema.checkReferences
  if .docs ∈ o.flags then
    return (← blame .renderDocs (schema.page o.title)).text
  else
    return (← blame .normalize (o.canonical schema)).pretty

/-- The text of the input. -/
def source (o : Options) (standardInput : Contents) (d : Directory) : Except Failure String :=
  if o.input = "-" then blameSystem .readStandardInput standardInput.text
  else blameSystem (.readInput o.input) (d.read o.input)

/-- The directory after writing a file and making the directories on the way to it. -/
def write (path text : String) (d : Directory) : Directory × Except Failure Unit :=
  let (d, made) : Directory × Except Failure Unit := match Directory.parent? path with
    | none => (d, .ok ())
    | some parent =>
      let (d, made) := d.make parent
      (d, blameSystem (.makeDirectory parent) made)
  match made with
  | .error failure => (d, .error failure)
  | .ok () =>
    match blameSystem (.writeOutput path) (d.write path text) with
    | .error failure => (d, .error failure)
    | .ok d => (d, .ok ())

end Options

/-- How a run ends. -/
inductive Ending where
  /-- The help was asked for. -/
  | help
  /-- The arguments were misused. -/
  | misuse
  /-- The task is done, with this text on standard output. -/
  | done (standardOutput : String)
  | failed (failure : Failure)

/-- The line that names the program and its version. -/
def versionLine : String := "manifest-schema 0.1.0\n"

/-- The exit code. -/
def Ending.exitCode : Ending → Nat
  | help | done _ => 0
  | failed _ => 1
  | misuse => 2

def Options.run (engine : Filter.Engine) (o : Options) (standardInput : Contents) (d : Directory) :
    Directory × Ending :=
  if .noOp ∈ o.flags then (d, .done "")
  else
    match o.source standardInput d >>= o.result engine with
    | .error failure => (d, .failed failure)
    | .ok text =>
      match o.value? .output with
      | none => (d, .done text)
      | some path =>
        match Options.write path text d with
        | (d, .ok ()) => (d, .done "")
        | (d, .error failure) => (d, .failed failure)

/-- A run of the program in a directory. -/
def run (engine : Filter.Engine) (arguments : List String) (standardInput : Contents)
    (d : Directory) : Directory × Ending :=
  match Options.ofArguments arguments with
  | .error .help => (d, .help)
  | .error .version => (d, .done versionLine)
  | .error .misuse => (d, .misuse)
  | .ok o => o.run engine standardInput d

end CommandLine

end ConfigSchema
