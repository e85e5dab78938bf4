import ConfigSchema.Docs.Page
import ConfigSchema.Input

/-!
# Arguments

Arguments are taken from left to right. A setting's value is attached to it or is the next argument,
unless that looks like an option itself; it is only checked, and put to use, when the next option
comes up or the arguments end. Nothing may be given twice. A request for help or for the version
ends the reading where it is met, and so does a misuse.
-/

namespace ConfigSchema

namespace CommandLine

/-- An option with a value. -/
inductive Setting where
  | input
  | output
  | pointer
  | filter
  | version
  | title
deriving DecidableEq, Repr

/-- An option without a value. -/
inductive Flag where
  | docs
  | noOp
  | help
  | version
deriving DecidableEq, Repr

/-- The options given, each at most once. -/
structure Options where
  flags : List Flag
  values : List (Setting × String)
deriving Repr

/-- Why the program does nothing. -/
inductive Halt where
  | help
  | version
  | misuse
deriving DecidableEq, Repr

namespace Options

def value? (o : Options) (s : Setting) : Option String := o.values.lookup s

/-- The name of the input, where a dash is standard input. -/
def input (o : Options) : String := (o.value? .input).getD "-"

def title (o : Options) : String := (o.value? .title).getD Page.defaultTitle

/-- How the schema is picked out of the input. -/
def selection (o : Options) : Selection := ⟨o.value? .filter, o.value? .pointer⟩

/-- Puts a value to use. The name of the output may not be empty. -/
def give (o : Options) (s : Setting) (value : String) : Except Halt Options :=
  if (o.value? s).isSome ∨ (s = .output ∧ value = "") then .error .misuse
  else .ok { o with values := o.values ++ [(s, value)] }

def raise (o : Options) (f : Flag) : Except Halt Options :=
  match f with
  | .help => .error .help
  | .version => .error .version
  | f => if f ∈ o.flags then .error .misuse else .ok { o with flags := o.flags ++ [f] }

end Options

/-- What has been read: the options put to use, and a setting that waits for its value or whose
value waits to be put to use. -/
structure Reading where
  options : Options := ⟨[], []⟩
  pending? : Option (Setting × Option String) := none
  /-- No option may follow two dashes. -/
  ended : Bool := false

/-- What a long name stands for. -/
def longName? (name : String) : Option (Flag ⊕ Setting) :=
  [("docs", .inl .docs), ("no-op", .inl .noOp), ("help", .inl .help), ("version", .inl .version),
    ("input", .inr .input), ("out", .inr .output), ("json-pointer", .inr .pointer),
    ("jq-expr", .inr .filter), ("manifest-version", .inr .version),
    ("title", .inr .title)].lookup name

/-- What a letter stands for. -/
def letter? : Char → Option (Flag ⊕ Setting)
  | 'h' => some (.inl .help)
  | 'V' => some (.inl .version)
  | 'i' => some (.inr .input)
  | 'o' => some (.inr .output)
  | _ => none

namespace Reading

/-- Puts the waiting value to use; it must have come. -/
def settle (r : Reading) : Except Halt Reading :=
  match r.pending? with
  | none => .ok r
  | some (_, none) => .error .misuse
  | some (s, some value) => do
    return { r with options := ← r.options.give s value, pending? := none }

def flag (r : Reading) (f : Flag) : Except Halt Reading := do
  let r ← r.settle
  return { r with options := ← r.options.raise f }

/-- Takes a setting, whose value may be attached. -/
def setting (r : Reading) (s : Setting) (attached? : Option String) : Except Halt Reading := do
  let r ← r.settle
  match attached? with
  | none => return { r with pending? := some (s, none) }
  | some value => return { r with options := ← r.options.give s value }

/-- Takes an option by its long name, with a value after an equals sign. -/
def long (r : Reading) (body : List Char) : Except Halt Reading :=
  let name := String.ofList (body.takeWhile (· != '='))
  let attached? := match body.dropWhile (· != '=') with
    | [] => none
    | _ :: value => some (String.ofList value)
  match longName? name, attached? with
  | some (.inl f), none => r.flag f
  | some (.inl _), some _ => .error .misuse
  | some (.inr s), value => r.setting s value
  | none, _ => .error .misuse

/-- Takes letters; the first setting among them has what follows as its value. -/
def letters (r : Reading) : List Char → Except Halt Reading
  | [] => .ok r
  | c :: rest =>
    match letter? c with
    | some (.inl f) => do (← r.flag f).letters rest
    | some (.inr s) =>
      match rest with
      | [] => r.setting s none
      | '=' :: value => r.setting s (some (String.ofList value))
      | value => r.setting s (some (String.ofList value))
    | none => .error .misuse

/-- Takes an argument that is no option: it must be a value that is waited for. -/
def plain (r : Reading) (argument : String) : Except Halt Reading :=
  match r.pending? with
  | some (s, none) => .ok { r with pending? := some (s, some argument) }
  | _ => .error .misuse

def take (r : Reading) (argument : String) : Except Halt Reading :=
  if r.ended then .error .misuse
  else match argument.toList with
    | ['-', '-'] => .ok { r with ended := true }
    | '-' :: '-' :: body => r.long body
    | '-' :: c :: cs => r.letters (c :: cs)
    | _ => r.plain argument

end Reading

def Options.ofArguments (arguments : List String) : Except Halt Options := do
  let r ← arguments.foldlM Reading.take {}
  return (← r.settle).options

end CommandLine

end ConfigSchema
