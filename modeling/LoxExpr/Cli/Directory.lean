set_option autoImplicit false

namespace LoxExpr.Cli

inductive Entry where
  | file (content : List UInt8)
  | directory
  deriving DecidableEq, Repr

inductive ReadError where
  | missing
  | isDirectory
  | notDirectory
  | nameTooLong
  | invalidText
  deriving DecidableEq, Repr

def ReadError.message : ReadError → String
  | missing => "No such file or directory (os error 2)"
  | isDirectory => "Is a directory (os error 21)"
  | notDirectory => "Not a directory (os error 20)"
  | nameTooLong => "File name too long (os error 36)"
  | invalidText => "stream did not contain valid UTF-8"

def cutSlashes : List Char → List (List Char)
  | [] => [[]]
  | c :: cs =>
    if c = '/' then [] :: cutSlashes cs
    else match cutSlashes cs with
      | [] => [[c]]
      | part :: parts => (c :: part) :: parts

/-- The components of a path. Slashes next to each other and at the ends leave empty ones, which
name the directory they stand in. -/
def components (path : String) : List String := (cutSlashes path.toList).map String.ofList

def start (path : String) : List String := if path.toList.head? = some '/' then ["/"] else []

/-- The place that a component names in a directory. The directory above a named one loses its
name, the root is above itself, and above the working directory the dots are kept. -/
def join (place : List String) (component : String) : List String :=
  if component = "" ∨ component = "." then place
  else if component = ".." then
    match place.getLast? with
    | none => [".."]
    | some ".." => place ++ [".."]
    | some "/" => place
    | some _ => place.dropLast
  else place ++ [component]

structure Directory where
  entries : List (List String × Entry)
  deriving DecidableEq, Repr

namespace Directory

def empty : Directory := ⟨[]⟩

/-- Of what was there before any entry was made, only the working directory, those above it and the
root are known. -/
def entry? (d : Directory) (place : List String) : Option Entry :=
  if place.all (fun c => c == ".." || c == "/") then some .directory else d.entries.lookup place

def put (d : Directory) (place : List String) (entry : Entry) : Directory :=
  ⟨(place, entry) :: d.entries⟩

def make (d : Directory) (place : List String) : List String → Directory × List String
  | [] => (d, place)
  | c :: cs =>
    match d.entry? (join place c) with
    | some _ => d.make (join place c) cs
    | none => (d.put (join place c) .directory).make (join place c) cs

/-- Makes an entry with the directories on the way to it. A file takes the place of what was there,
a directory that is there stays. -/
def create (d : Directory) (path : String) : Entry → Directory
  | .directory => (d.make (start path) (components path)).1
  | .file content =>
    let (made, parent) := d.make (start path) (components path).dropLast
    made.put ((components path).getLast?.toList.foldl join parent) (.file content)

def ofList (entries : List (String × Entry)) : Directory :=
  entries.foldl (fun d (path, entry) => d.create path entry) empty

end Directory

inductive Reached where
  | directory (place : List String)
  | file (content : List UInt8)
  deriving DecidableEq, Repr

namespace Directory

def follow (d : Directory) : Reached → String → Except ReadError Reached
  | .file _, _ => .error .notDirectory
  | .directory place, c =>
    if 255 < c.utf8ByteSize then .error .nameTooLong
    else match d.entry? (join place c) with
      | none => .error .missing
      | some .directory => .ok (.directory (join place c))
      | some (.file content) => .ok (.file content)

def read (d : Directory) (path : String) : Except ReadError (List UInt8) :=
  if 4095 < path.utf8ByteSize then .error .nameTooLong
  else match (components path).foldlM d.follow (.directory (start path)) with
    | .error e => .error e
    | .ok (.file content) => .ok content
    | .ok (.directory _) => .error .isDirectory

end Directory

end LoxExpr.Cli
