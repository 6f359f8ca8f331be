import SchemaCompiler.Suite.Disk
import SchemaCompiler.Suite.Group

/-!
# Running suites

The command line names suite files. Each file is run and its cases are reported; the run fails if
any of them does.
-/
namespace SchemaCompiler.Suite

/-- What the command line asks for. -/
structure Arguments where
  inputs : List String
  run : RunOptions
  /-- Whether cases that pass are reported too. -/
  verbose : Bool
deriving DecidableEq, Repr

/-- Why a command line cannot be understood. -/
inductive UsageFault where
  | unexpected (argument : String)
  | noValue
  | repeated (flag : String)
deriving DecidableEq, Repr

namespace UsageFault

def usage : List String := ["", "Usage: dev-test-runner [OPTIONS]"]

def lines : UsageFault → List String
  | unexpected argument =>
    ("error: unexpected argument '" ++ argument ++ "' found") :: usage ++ help
  | noValue =>
    "error: a value is required for '--input <INPUT>...' but none was supplied" :: help
  | repeated flag =>
    ("error: the argument '" ++ flag ++ "' cannot be used multiple times") :: usage ++ help
where
  /-- The last lines. -/
  help : List String := ["", "For more information, try '--help'."]

end UsageFault

namespace Arguments

def defaultInput : String := "dev-test-runner/suites/*.json"

def none : Arguments := ⟨[], ⟨false, false⟩, false⟩

def once (flag : String) (isSet : Bool) (set : Arguments) : Except UsageFault Arguments :=
  if isSet then .error (.repeated flag) else .ok set

def takeLong (flag : String) (args : Arguments) : Except UsageFault Arguments :=
  if flag == "--verbose" then once flag args.verbose { args with verbose := true }
  else if flag == "--all-errors" then
    once flag args.run.allErrors { args with run := { args.run with allErrors := true } }
  else if flag == "--standalone" then
    once flag args.run.standalone { args with run := { args.run with standalone := true } }
  else .error (.unexpected flag)

def isFlag (argument : String) : Bool := argument.startsWith "-" && argument != "-"

def withInputs (inputs : List String) (args : Arguments) : Arguments :=
  { args with inputs := args.inputs ++ inputs }

/-- The value behind a flag in one argument, an equals sign in front of it left out. -/
def attached (cs : List Char) : String :=
  match cs with
  | '=' :: rest => String.ofList rest
  | _ => String.ofList cs

/-- Takes in flags of one letter that stand together; gives whether values have to follow. -/
def takeShort (args : Arguments) : List Char → Except UsageFault (Arguments × Bool)
  | [] => .ok (args, false)
  | 'i' :: [] => .ok (args, true)
  | 'i' :: rest => .ok (args.withInputs [attached rest], false)
  | 'v' :: rest =>
    match takeLong "--verbose" args with
    | .ok args => takeShort args rest
    | .error fault => .error fault
  | c :: _ => .error (.unexpected ("-" ++ String.singleton c))

def takeFlag (flag : String) (args : Arguments) : Except UsageFault (Arguments × Bool) :=
  if flag == "--input" then .ok (args, true)
  else if flag.startsWith "--input=" then
    .ok (args.withInputs [(flag.drop 8).toString], false)
  else if flag.startsWith "--" then (takeLong flag args).map (·, false)
  else takeShort args (flag.toList.drop 1)

/-- Where a command line has come to: no values may follow, one has to, or more may. -/
inductive Expecting where
  | nothing
  | value
  | more
deriving DecidableEq, Repr

def take (args : Arguments) : Expecting → List String → Except UsageFault Arguments
  | .value, [] => .error .noValue
  | _, [] => .ok args
  | expecting, argument :: rest =>
    if isFlag argument then
      if expecting = .value then .error .noValue
      else
        match takeFlag argument args with
        | .ok (args, follow) => take args (if follow then .value else .nothing) rest
        | .error fault => .error fault
    else if expecting = .nothing then .error (.unexpected argument)
    else take (args.withInputs [argument]) .more rest

def ofList (arguments : List String) : Except UsageFault Arguments := do
  let args ← take none .nothing arguments
  return if args.inputs.isEmpty then { args with inputs := [defaultInput] } else args

end Arguments

/-- What a run prints and gives back: the lines of the report, those about errors, and the
status. -/
structure Report where
  lines : List String
  errors : List String
  status : Nat
deriving DecidableEq, Repr

/-- How many cases passed and failed, and the lines about them. -/
structure Tally where
  passed : Nat
  failed : Nat
  lines : List String

namespace Tally

def start : Tally := ⟨0, 0, []⟩

def case (verbose : Bool) (path : String) (t : Tally) (o : CaseOutcome) : Tally :=
  let place := path ++ " / " ++ o.group ++ " / " ++ o.case
  match o.failure with
  | none =>
    { t with
      passed := t.passed + 1
      lines := if verbose then t.lines ++ ["PASS " ++ place] else t.lines }
  | some why =>
    { t with failed := t.failed + 1, lines := t.lines ++ ["FAIL " ++ place ++ ": " ++ why] }

def file (verbose : Bool) (t : Tally) (path : String)
    (outcomes : Except String (List CaseOutcome)) : Tally :=
  match outcomes with
  | .error message =>
    { t with failed := t.failed + 1, lines := t.lines ++ ["ERROR " ++ path ++ ": " ++ message] }
  | .ok outcomes => outcomes.foldl (case verbose path) t

def report (t : Tally) : Report :=
  let summary := toString t.passed ++ " passed, " ++ toString t.failed ++ " failed"
  if t.failed > 0 then
    ⟨t.lines ++ [summary], ["error: " ++ toString t.failed ++ " case(s) failed"], 1⟩
  else ⟨t.lines ++ [summary], [], 0⟩

end Tally

/-- Runs the text of a file; a text that cannot be had or read is an error. -/
def runText (options : RunOptions) (path : String) (text : Except ReadFault String) :
    Except String (List CaseOutcome) :=
  match text with
  | .error fault => .error ("reading " ++ path ++ ": " ++ fault.message)
  | .ok text =>
    match readGroups text with
    | .error message => .error ("parsing " ++ path ++ ": " ++ message)
    | .ok groups => .ok (groups.flatMap (Group.run options))

def runFiles (args : Arguments) (files : List (String × Except ReadFault String)) : Report :=
  (files.foldl (fun t (path, text) =>
    t.file args.verbose path (runText args.run path text)) Tally.start).report

def InputFault.report (fault : InputFault) : Report := ⟨[], ["error: " ++ fault.message], 1⟩

def UsageFault.report (fault : UsageFault) : Report := ⟨[], fault.lines, 2⟩

def run (disk : Disk) (arguments : List String) : Report :=
  match Arguments.ofList arguments with
  | .error fault => fault.report
  | .ok args =>
    match expandInputs disk.listing args.inputs with
    | .error fault => fault.report
    | .ok paths => runFiles args (paths.map fun path => (path, disk.read path))

end SchemaCompiler.Suite
