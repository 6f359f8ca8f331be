import SchemaCompiler.Suite.Report

/-!
# The command line

Runs suite files and reports. All that is decided is decided by `Suite`; here directories are
listed, files are read and lines are printed.
-/
namespace SchemaCompiler.Suite.CommandLine

/-- All that is below a place, as components from there, down to a number of levels. -/
def walk : Nat → String → List String → IO (List (List String × Bool))
  | 0, _, _ => return []
  | levels + 1, place, above => do
    let here ← IO.FS.realPath place
    if !(← here.isDir) then return []
    let mut found := #[]
    for entry in ← here.readDir do
      let path := above ++ [entry.fileName]
      let isDirectory ← entry.path.isDir
      found := found.push (path, isDirectory)
      if isDirectory then
        found := found ++ (← walk levels entry.path.toString path).toArray
    return found.toList

def reach (glob : Glob) : Nat :=
  if glob.components.contains .directories then 64 else glob.components.length

def list (glob : Glob) : IO (List (List String × Bool)) := do
  let root := if glob.isAbsolute then "/" else ""
  let start := root ++ "/".intercalate glob.lead
  try walk (reach glob) (if start.isEmpty then "." else start) glob.lead
  catch _ => return []

def readText (path : String) : IO (Except ReadFault String) := do
  try return .ok (← IO.FS.readFile path)
  catch
    | .noFileOrDirectory .. => return .error .missing
    | _ =>
      let isDirectory ← try (← IO.FS.realPath path).isDir catch _ => pure false
      return .error (if isDirectory then .isDirectory else .missing)

def finish (report : Report) : IO UInt32 := do
  report.lines.forM IO.println
  report.errors.forM IO.eprintln
  return report.status.toUInt32

def resolve : List String → IO (Except InputFault (List String))
  | [] => return .ok []
  | input :: rest => do
    let known ←
      match Glob.read input with
      | .ok glob => if isPattern input then list glob else pure []
      | .error _ => pure []
    match expandInput (fun _ => known) input with
    | .error fault => return .error fault
    | .ok found => return (← resolve rest).map (found ++ ·)

end SchemaCompiler.Suite.CommandLine

open SchemaCompiler.Suite in
def main (arguments : List String) : IO UInt32 := do
  match Arguments.ofList arguments with
  | .error fault => CommandLine.finish fault.report
  | .ok args =>
    match ← CommandLine.resolve args.inputs with
    | .error fault => CommandLine.finish fault.report
    | .ok paths =>
      let files ← (sortPaths paths).mapM fun path => do
        return (path, ← CommandLine.readText path)
      CommandLine.finish (runFiles args files)
