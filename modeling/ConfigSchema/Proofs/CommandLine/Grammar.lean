import ConfigSchema.CommandLine.Arguments

/-!
# The grammar of arguments

`Accepts arguments given` says which arguments are accepted, and which options they give. It does not
say how they are read: `SpellsAll` only cuts the arguments into the spellings of options.
-/

namespace ConfigSchema

namespace CommandLine

/-- An option that is given, with its value. -/
inductive Given where
  | flag (f : Flag)
  | setting (s : Setting) (value : String)
deriving DecidableEq

namespace Given

def option : Given → Flag ⊕ Setting
  | flag f => .inl f
  | setting s _ => .inr s

end Given

/-- The long name. -/
def Setting.name : Setting → String
  | input => "input"
  | output => "out"
  | pointer => "json-pointer"
  | filter => "jq-expr"
  | version => "manifest-version"
  | title => "title"

/-- The short name. -/
def Setting.letter? : Setting → Option Char
  | input => some 'i'
  | output => some 'o'
  | _ => none

/-- An argument that does not look like an option. -/
def IsPlain (argument : String) : Prop := argument = "-" ∨ argument.toList.head? ≠ some '-'

/-- The arguments, one or two, that give an option. -/
inductive Spells : List String → Given → Prop
  | docs : Spells ["--docs"] (.flag .docs)
  | noOp : Spells ["--no-op"] (.flag .noOp)
  | long (s : Setting) {value : String} (hvalue : IsPlain value) :
      Spells ["--" ++ s.name, value] (.setting s value)
  | longAttached (s : Setting) (value : String) :
      Spells ["--" ++ s.name ++ "=" ++ value] (.setting s value)
  | short {s : Setting} {c : Char} {value : String} (hc : s.letter? = some c)
      (hvalue : IsPlain value) : Spells [String.ofList ['-', c], value] (.setting s value)
  | shortAttached {s : Setting} {c : Char} (hc : s.letter? = some c) (value : String) :
      Spells [String.ofList ['-', c, '='] ++ value] (.setting s value)
  | shortJoined {s : Setting} {c : Char} {value : String} (hc : s.letter? = some c)
      (hne : value ≠ "") (hvalue : value.toList.head? ≠ some '=') :
      Spells [String.ofList ['-', c] ++ value] (.setting s value)

theorem Spells.ne_nil {words : List String} {g : Given} (h : Spells words g) : words ≠ [] := by
  cases h <;> exact List.cons_ne_nil _ _

/-- The arguments that give several options in this order. Two dashes may end them. -/
inductive SpellsAll : List String → List Given → Prop
  | nil : SpellsAll [] []
  | ended : SpellsAll ["--"] []
  | cons {words rest : List String} {g : Given} {given : List Given} (hword : Spells words g)
      (hrest : SpellsAll rest given) : SpellsAll (words ++ rest) (g :: given)

theorem SpellsAll.flags {arguments : List String} {given : List Given}
    (h : SpellsAll arguments given) :
    ∀ g ∈ given, g.option ≠ .inl .help ∧ g.option ≠ .inl .version := by
  induction h with
  | nil | ended => exact List.forall_mem_nil _
  | cons hword _ ih =>
    refine List.forall_mem_cons.mpr ⟨?_, ih⟩
    cases hword <;> exact ⟨nofun, nofun⟩

/-- The arguments are accepted, and they give these options: none twice, and no output without a
name. -/
structure Accepts (arguments : List String) (given : List Given) : Prop where
  spells : SpellsAll arguments given
  once : (given.map Given.option).Nodup
  named : .setting .output "" ∉ given

/-- The value of a setting, where one is given. -/
def Gives (given : List Given) (s : Setting) : Option String → Prop
  | some value => .setting s value ∈ given
  | none => ∀ value, .setting s value ∉ given

end CommandLine

end ConfigSchema
