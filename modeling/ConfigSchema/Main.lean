import ConfigSchema.CommandLine.Run
import ConfigSchema.Filter.Engine

/-!
# The program

The outer layer: arguments, standard streams and files. What it does is decided in
`ConfigSchema.CommandLine`.
-/

namespace ConfigSchema

namespace CommandLine

def usage : String :=
  "Usage: manifest-schema [OPTIONS]\n\n" ++
  "Options:\n" ++
  "      --docs                 print Markdown reference documentation\n" ++
  "  -i, --input <INPUT>        schema JSON file, or - for stdin\n" ++
  "      --json-pointer <PTR>   JSON Pointer selecting the schema inside the input\n" ++
  "      --jq-expr <FILTER>     jq filter selecting the schema inside the input\n" ++
  "  -o, --out <OUT>            output file (stdout if omitted)\n" ++
  "      --manifest-version <V> version stamped on the canonical schema\n" ++
  "      --title <TITLE>        heading of the documentation page\n" ++
  "      --no-op                read the options and stop\n" ++
  "  -h, --help                 print help\n" ++
  "  -V, --version              print version\n"

/-- The fault that an error of the file system is, when it is one of those the program words
itself. -/
def SystemFault.ofError? : IO.Error → Option SystemFault
  | .noFileOrDirectory .. | .noSuchThing .. => some .notFound
  | .hardwareFault .. => some .failing
  | .permissionDenied .. => some .notPermitted
  | .alreadyExists .. => some .exists
  -- The code of a fault comes with either sign.
  | .inappropriateType _ code _ =>
    some (if code = 20 ∨ code + 20 = 0 then .notDirectory else .isDirectory)
  | .invalidArgument _ code _ => if code = 36 ∨ code + 36 = 0 then some .nameTooLong else none
  | _ => none

/-- Does a task on a file, and words what goes wrong. -/
def attempt {α : Type} (task : Task) (action : IO α) : IO (Except String α) :=
  try
    return .ok (← action)
  catch e =>
    match SystemFault.ofError? e with
    | some fault => return .error (Failure.report ⟨task, .system fault⟩)
    | none => return .error ("Error: " ++ task.wording ++ ": " ++ toString e ++ "\n")

/-- Reads a text for a task. -/
def readText (task : Task) (action : IO ByteArray) : IO (Except String String) := do
  match ← attempt task action with
  | .error report => return .error report
  | .ok bytes => return (blameSystem task (Contents.text (.ok bytes))).mapError Failure.report

/-- Reads the input that the options name. -/
def Options.readInput (o : Options) : IO (Except String String) :=
  if o.input = "-" then readText .readStandardInput do (← IO.getStdin).readBinToEnd
  else readText (.readInput o.input) (IO.FS.readBinFile o.input)

/-- Writes the result where the options say. -/
def Options.writeResult (o : Options) (text : String) : IO (Except String Unit) := do
  match o.value? .output with
  | none =>
    (← IO.getStdout).putStr text
    return .ok ()
  | some path =>
    match Directory.parent? path with
    | none => attempt (.writeOutput path) (IO.FS.writeFile path text)
    | some parent =>
      match ← attempt (.makeDirectory parent) (unless parent = "" do IO.FS.createDirAll parent) with
      | .error report => return .error report
      | .ok () => attempt (.writeOutput path) (IO.FS.writeFile path text)

def complain (report : String) : IO UInt32 := do
  (← IO.getStderr).putStr report
  return 1

def Options.perform (o : Options) : IO UInt32 := do
  if .noOp ∈ o.flags then return 0
  match ← o.readInput with
  | .error report => complain report
  | .ok source =>
    match o.result Filter.engine source with
    | .error failure => complain failure.report
    | .ok text =>
      match ← o.writeResult text with
      | .error report => complain report
      | .ok () => return 0

end CommandLine

end ConfigSchema

open ConfigSchema.CommandLine in
def main (arguments : List String) : IO UInt32 := do
  match Options.ofArguments arguments with
  | .error .help =>
    (← IO.getStdout).putStr usage
    return 0
  | .error .version =>
    (← IO.getStdout).putStr versionLine
    return 0
  | .error .misuse =>
    (← IO.getStderr).putStr usage
    return 2
  | .ok o => o.perform
