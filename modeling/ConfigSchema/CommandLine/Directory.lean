import ConfigSchema.Json.Pointer

/-!
# Directories

A directory is the list of the files and directories below it, each with the names on the way to it.
A file holds bytes, which need not be a text. A path is followed name by name from there, or from
the root when it begins with a slash; of what lies outside only the directories on the way up are
known. Every name that another one follows must lead to a directory, where `.` stays and `..` goes
up; a slash at the end claims a directory too. Names and paths have a greatest length.
-/

namespace ConfigSchema

namespace CommandLine

/-- What keeps from reading or writing. -/
inductive SystemFault where
  | notFound
  | failing
  | notPermitted
  | exists
  | notDirectory
  | isDirectory
  | nameTooLong
  /-- The bytes are no text in UTF-8. -/
  | notText
deriving DecidableEq, Repr

def SystemFault.message : SystemFault → String
  | notFound => "No such file or directory (os error 2)"
  | failing => "Input/output error (os error 5)"
  | notPermitted => "Permission denied (os error 13)"
  | .exists => "File exists (os error 17)"
  | notDirectory => "Not a directory (os error 20)"
  | isDirectory => "Is a directory (os error 21)"
  | nameTooLong => "File name too long (os error 36)"
  | notText => "stream did not contain valid UTF-8"

/-- What is read from a file or a stream: bytes, unless something keeps from reading them. -/
abbrev Contents := Except SystemFault ByteArray

namespace Contents

def ofText (text : String) : Contents := .ok text.toUTF8

/-- The text that the bytes are. -/
def text (c : Contents) : Except SystemFault String := do
  match String.fromUTF8? (← c) with
  | some text => return text
  | none => throw .notText

end Contents

inductive Item where
  | file (contents : Contents)
  | directory

/-- What lies below a directory, each with the names on the way to it. -/
abbrev Directory := List (List String × Item)

/-- The length of a path in bytes from which on it is refused. -/
def pathLimit : Nat := 4096

/-- The length of a name in bytes from which on it is refused. -/
def nameLimit : Nat := 256

/-- Where a path leads: to a directory, or to a name in one. -/
structure Place where
  directory : List String
  name? : Option String
  /-- Whether a slash follows the name. -/
  closed : Bool

namespace Directory

/-! ### Paths -/

def names (path : String) : List String :=
  ((Pointer.split path.toList).filter (· ≠ [])).map String.ofList

/-- Where a path begins. The root stands for itself. -/
def start (path : String) : List String := if path.toList.head? = some '/' then ["/"] else []

def endsInSlash (path : String) : Bool := path.toList.getLast? == some '/'

/-- One name further on. The root is above itself, and above the directory are its ancestors. -/
def step (here : List String) (name : String) : List String :=
  if name = "." then here
  else if name = ".." then
    if here = ["/"] then here
    else if here.all (· = "..") then here ++ [".."]
    else here.dropLast
  else here ++ [name]

def item? (d : Directory) (place : List String) : Option Item :=
  if place = ["/"] ∨ place.all (· = "..") then some .directory else d.lookup place

/-- Puts something at a place, instead of what was there. -/
def put (d : Directory) (place : List String) (item : Item) : Directory :=
  d.filter (fun e => e.1 ≠ place) ++ [(place, item)]

/-- What a name leads to. -/
def look (d : Directory) (here : List String) (name : String) : Except SystemFault (Option Item) :=
  if nameLimit ≤ name.utf8ByteSize then .error .nameTooLong else .ok (d.item? (step here name))

/-- The directory that a name leads to. -/
def enter (d : Directory) (here : List String) (name : String) :
    Except SystemFault (List String) := do
  match ← d.look here name with
  | none => throw .notFound
  | some (.file _) => throw .notDirectory
  | some .directory => return step here name

def follow (d : Directory) (path : String) : Except SystemFault Place :=
  if path = "" then .error .notFound
  else if pathLimit ≤ path.utf8ByteSize then .error .nameTooLong
  else match (names path).getLast? with
    | none => .ok ⟨start path, none, false⟩
    | some name => do
      let here ← (names path).dropLast.foldlM d.enter (start path)
      if name = "." ∨ name = ".." then return ⟨step here name, none, false⟩
      else return ⟨here, some name, endsInSlash path⟩

/-! ### Files -/

def read (d : Directory) (path : String) : Except SystemFault String := do
  let place ← d.follow path
  match place.name? with
  | none => throw .isDirectory
  | some name =>
    match ← d.look place.directory name with
    | none => throw .notFound
    | some .directory => throw .isDirectory
    | some (.file contents) => if place.closed then throw .notDirectory else contents.text

/-- Writes a file, new or instead of an old one. -/
def write (d : Directory) (path text : String) : Except SystemFault Directory := do
  let place ← d.follow path
  match place.name? with
  | none => throw .isDirectory
  | some name =>
    if place.closed then throw .isDirectory
    match ← d.look place.directory name with
    | some .directory => throw .isDirectory
    | _ => return d.put (step place.directory name) (.file (.ofText text))

/-! ### Making directories -/

/-- Makes the directory that names, given backwards, lead to. -/
def makeOne (d : Directory) (here : List String) : List String → Except SystemFault Directory
  | [] => .error .exists
  | name :: above => do
    let here ← above.reverse.foldlM d.enter here
    match ← d.look here name with
    | some _ => throw .exists
    | none => return d.put (step here name) .directory

/-- Whether names, given backwards, lead to a directory. -/
def leads (d : Directory) (here backwards : List String) : Bool :=
  (backwards.reverse.foldlM d.enter here).toOption.isSome

/-- Makes the directory that names, given backwards, lead to, and those on the way to it, as far as
they are missing. What has been made stays when a fault comes up. -/
def makeAll (d : Directory) (here : List String) :
    List String → Directory × Except SystemFault Unit
  | [] => (d, .ok ())
  | name :: above =>
    match d.makeOne here (name :: above) with
    | .ok d => (d, .ok ())
    | .error .notFound =>
      match d.makeAll here above with
      | (d, .error fault) => (d, .error fault)
      | (d, .ok ()) =>
        match d.makeOne here (name :: above) with
        | .ok d => (d, .ok ())
        | .error fault => (d, if d.leads here (name :: above) then .ok () else .error fault)
    | .error fault => (d, if d.leads here (name :: above) then .ok () else .error fault)

/-- Makes a directory and those on the way to it, as far as they are missing. -/
def make (d : Directory) (path : String) : Directory × Except SystemFault Unit :=
  if pathLimit ≤ path.utf8ByteSize then (d, .error .nameTooLong)
  else d.makeAll (start path) ((names path).filter (· ≠ ".")).reverse

/-- A path, given backwards, without the slashes at its end and the names there that stay. -/
def trimBackwards : List Char → List Char
  | '/' :: rest => trimBackwards rest
  | '.' :: '/' :: rest => trimBackwards rest
  | cs => cs

/-- The path of the directory that holds what a path names; the root has none. -/
def parent? (path : String) : Option String :=
  let body := trimBackwards path.toList.reverse
  if body.isEmpty then none
  else
    let rest := body.dropWhile (· != '/')
    let trimmed := trimBackwards rest
    some (if trimmed.isEmpty && !rest.isEmpty then "/" else String.ofList trimmed.reverse)

/-- The directory with these files. -/
def ofFiles (files : List (String × String)) : Directory :=
  files.foldl (fun d file =>
    let place := (names file.1).filter (· ≠ ".")
    let above := (List.range (place.length - 1)).map fun i => place.take (i + 1)
    let d := above.foldl (fun d p => if (d.item? p).isSome then d else d.put p .directory) d
    d.put place (.file (.ofText file.2))) []

end Directory

end CommandLine

end ConfigSchema
