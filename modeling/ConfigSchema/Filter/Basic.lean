import ConfigSchema.Filter.Value

/-!
# Filters

A filter takes a value to a sequence of outputs. A failure passes through every filter but
`attempt`, which ends before the first one, and the accesses that are marked as optional, which drop
their own.

A `chain` of accesses is followed as a whole. Its keys and bounds are outputs for the input of the
chain, not for the value that an access has reached; each choice of them, `runPath`, is one path
that is followed from every output of the base.
-/

namespace ConfigSchema

namespace Filter

/-- A step whose failure is dropped when it is optional. -/
structure Access (α : Type) where
  selector : Selector α
  optional : Bool

end Filter

inductive Filter where
  | identity
  | constant (v : Filter.Value)
  /-- What the accesses lead to from an output of `base`, one after the other. -/
  | chain (base : Filter) (path : List (Filter.Access Filter))
  /-- The outputs before the first failure. -/
  | attempt (f : Filter)
  | pipe (f g : Filter)
  | comma (f g : Filter)
  /-- The outputs of `f` that are not null or false, or those of `g` if there are none. -/
  | alternative (f g : Filter)
  | equal (f g : Filter)
  | negate (f : Filter)
  /-- One list of all outputs. -/
  | collect (f : Filter)
  /-- An object for each choice of outputs for its keys and values. -/
  | object (entries : List (Filter × Filter))
  | empty
  /-- The input, once for each output that is not null or false. -/
  | select (f : Filter)
  | keys
  | length

namespace Filter

/-- Applies `f` to what has not failed and passes failures on. -/
def through {α : Type} (outputs : List (Option α)) (f : α → List Output) : List Output :=
  outputs.flatMap fun
    | some a => f a
    | none => [none]

/-- Combines every one of `as` with every one of `bs`, which change faster; a failure on either side
is one of the combination. -/
def combine {α β γ : Type} (op : α → β → Option γ) (as : List (Option α)) (bs : List (Option β)) :
    List (Option γ) :=
  as.flatMap fun a? => bs.map fun b? =>
    match a?, b? with
    | some a, some b => op a b
    | _, _ => none

/-- An object with one more entry, whose key must be a text. -/
def withEntry (o : Value) (entry : Value × Value) : Output :=
  match o, entry with
  | .object fs, (.string k, v) => some (.object (Fields.insert fs k v))
  | _, _ => none

/-- What a value gives in one access. -/
def Access.run (a : Access Value) (v : Value) : List Output :=
  if a.optional then (v.step a.selector).filter Option.isSome else v.step a.selector

/-- What a value gives in accesses one after the other. -/
def follow : List (Access Value) → Value → List Output
  | [], v => [some v]
  | a :: path, v => through (a.run v) (follow path)

mutual

def run : Filter → Value → List Output
  | identity, v => [some v]
  | constant c, _ => [some c]
  | chain base path, v =>
    through (run base v) fun b => through (runPath path v) fun accesses => follow accesses b
  | attempt f, v => (run f v).takeWhile Option.isSome
  | pipe f g, v => through (run f v) (run g)
  | comma f g, v => run f v ++ run g v
  | alternative f g, v =>
    let chosen := (run f v).filter fun o => o.all Value.isTruthy
    if chosen.isEmpty then run g v else chosen
  | equal f g, v => combine (fun a b => some (.bool (a.same b))) (run f v) (run g v)
  | negate f, v => (run f v).map (·.bind Value.negated)
  | collect f, v => [((run f v).mapM id).map .array]
  | object entries, v => runEntries entries v [some (.object [])]
  | empty, _ => []
  | select f, v => through (run f v) fun o => if o.isTruthy then [some v] else []
  | keys, v => [v.keyList]
  | length, v => [v.lengthOf]

/-- The choices of keys and bounds for accesses, those of the first access changing the slowest. -/
def runPath : List (Access Filter) → Value → List (Option (List (Access Value)))
  | [], _ => [some []]
  | ⟨selector, optional⟩ :: path, v =>
    combine (fun s accesses => some (⟨s, optional⟩ :: accesses)) (runSelector selector v)
      (runPath path v)

/-- The choices of keys and bounds for a step. -/
def runSelector : Selector Filter → Value → List (Option (Selector Value))
  | .each, _ => [some .each]
  | .index key, v => (run key v).map (·.map .index)
  | .piece lower upper, v =>
    combine (fun l u => some (.piece l u)) (runBound lower v) (runBound upper v)

/-- The choices of a bound. -/
def runBound : Option Filter → Value → List (Option (Option Value))
  | none, _ => [some none]
  | some f, v => (run f v).map (·.map some)

/-- The objects so far with each choice for the further entries. -/
def runEntries : List (Filter × Filter) → Value → List Output → List Output
  | [], _, soFar => soFar
  | (key, value) :: rest, v, soFar =>
    let entries := combine (fun k x => some (k, x)) (run key v) (run value v)
    runEntries rest v (combine withEntry soFar entries)

end

end Filter

end ConfigSchema
