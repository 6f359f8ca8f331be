import SchemaCompiler.Suite.Path

/-!
# Files

The files that suites are read from, as a value. Directories are those that files are in.
-/
namespace SchemaCompiler.Suite

/-- The files of a directory, by their components. -/
structure Disk where
  files : List (List String × String)

/-- Why a file cannot be read. -/
inductive ReadFault where
  | missing
  | isDirectory
  | notDirectory
deriving DecidableEq, Repr

def ReadFault.message : ReadFault → String
  | missing => "No such file or directory (os error 2)"
  | isDirectory => "Is a directory (os error 21)"
  | notDirectory => "Not a directory (os error 20)"

namespace Disk

def ofList (files : List (String × String)) : Disk :=
  ⟨files.map fun (path, content) => (components path, content)⟩

def parents (file : List String) : List (List String) :=
  (List.range (file.length - 1)).map fun i => file.take (i + 1)

def paths (d : Disk) : List (List String × Bool) :=
  let directories := (d.files.flatMap fun (file, _) => parents file).eraseDups
  directories.map (·, true) ++ d.files.map fun (file, _) => (file, false)

def normalize (place : List String) : List String → List String
  | [] => place
  | "." :: rest => normalize place rest
  | ".." :: rest => normalize place.dropLast rest
  | c :: rest => normalize (place ++ [c]) rest

def read (d : Disk) (path : String) : Except ReadFault String :=
  if isAbsolute path || path.isEmpty then .error .missing
  else
    let place := normalize [] (components path)
    match Assoc.get? place d.files with
    | some content => if path.endsWith "/" then .error .notDirectory else .ok content
    | none =>
      if place.isEmpty || d.paths.contains (place, true) then .error .isDirectory
      else if d.files.any fun (file, _) => file.isPrefixOf place then .error .notDirectory
      else .error .missing

end Disk

/-- Why the inputs cannot be found. -/
inductive InputFault where
  | badPattern (fault : GlobFault)
  | noMatch (pattern : String)
deriving DecidableEq, Repr

def InputFault.message : InputFault → String
  | badPattern fault => fault.message
  | noMatch pattern => "glob pattern matched no files: " ++ pattern

/-- The paths that one input stands for; `listing` gives all that is below the place where a pattern
starts. -/
def expandInput (listing : Glob → List (List String × Bool)) (input : String) :
    Except InputFault (List String) :=
  if isPattern input then
    match Glob.read input with
    | .error fault => .error (.badPattern fault)
    | .ok glob =>
      let found := (listing glob).filter fun (path, isDirectory) => glob.accepts path isDirectory
      let root := if glob.isAbsolute then "/" else ""
      if found.isEmpty then .error (.noMatch input)
      else .ok (found.map fun (path, _) => root ++ "/".intercalate path)
  else .ok [input]

def expandInputs (listing : Glob → List (List String × Bool)) (inputs : List String) :
    Except InputFault (List String) := do
  let found ← inputs.mapM (expandInput listing)
  return sortPaths found.flatten

def Disk.listing (d : Disk) (glob : Glob) : List (List String × Bool) :=
  if glob.isAbsolute then [] else d.paths

end SchemaCompiler.Suite
