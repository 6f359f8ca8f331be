import SchemaCompiler.Scope

/-!
# Formats

A format is a named test of values. It constrains values of some types only.
-/
namespace SchemaCompiler

/-- How a format tests a value. A pattern is stored by its source, which it is read from; a
predicate can be stored in a module only by its path. -/
inductive Format.Test where
  | pattern (source : String) (compiled : Pattern) (read : Pattern.read source = .ok compiled)
  | primitive (routine : Primitive)
  | predicate (test : Json → Bool) (path : Option String)

/-- A format. -/
structure Format where
  /-- The types of values that the format constrains; others pass. -/
  types : List JsonType
  test : Format.Test
  isAsync : Bool

namespace Format

def ofPattern (source : String) : Except CompileError Format :=
  match read : Pattern.read source with
  | .ok compiled => .ok ⟨[.string], .pattern source compiled read, false⟩
  | .error fault => .error (.invalidPattern source fault)

def ofPrimitive (routine : Primitive) : Format := ⟨[.string], .primitive routine, false⟩

def ofPredicate (test : Json → Bool) : Format := ⟨[.string], .predicate test none, false⟩

def withPath (path : String) (f : Format) : Format :=
  match f.test with
  | .predicate test _ => { f with test := .predicate test (some path) }
  | _ => f

def descriptor (name : String) (f : Format) : Descriptor :=
  let key := "format:" ++ name
  match f.test with
  | .pattern source compiled _ => .keyed key (.pattern source compiled) (some (.pattern source))
  | .primitive routine => .keyed key (.primitive routine) (some (.imported routine.path))
  | .predicate test path => .keyed key (.format test) (path.map StoredValue.imported)

end Format

/-- Formats by name. -/
structure Formats where
  entries : List (String × Format)

namespace Formats

def insert (name : String) (f : Format) (formats : Formats) : Formats :=
  ⟨Assoc.insert name f formats.entries⟩

def get? (name : String) (formats : Formats) : Option Format := Assoc.get? name formats.entries

def patterns : List (String × String) :=
  [("email",
    "^[a-zA-Z0-9.!#$%&'*+/=?^_`\x7b|\x7d~-]+@[a-zA-Z0-9](?:[a-zA-Z0-9-]\x7b0,61\x7d[a-zA-Z0-9])?"
      ++ "(?:\\.[a-zA-Z0-9](?:[a-zA-Z0-9-]\x7b0,61\x7d[a-zA-Z0-9])?)*$"),
   ("uri", "^[a-zA-Z][a-zA-Z0-9+.-]*:[^\\s]*$"),
   ("uuid",
    "^(?:urn:uuid:)?[0-9a-fA-F]\x7b8\x7d-(?:[0-9a-fA-F]\x7b4\x7d-)\x7b3\x7d[0-9a-fA-F]\x7b12\x7d$"),
   ("ipv4",
    "^(?:(?:25[0-5]|2[0-4]\\d|1\\d\\d|[1-9]?\\d)\\.)\x7b3\x7d"
      ++ "(?:25[0-5]|2[0-4]\\d|1\\d\\d|[1-9]?\\d)$")]

def standard : Formats :=
  let dates : Formats :=
    ⟨[("date", .ofPrimitive .isDate), ("time", .ofPrimitive .isTime),
      ("date-time", .ofPrimitive .isTimestamp)]⟩
  patterns.foldl (fun formats (name, source) =>
    match Format.ofPattern source with
    | .ok f => formats.insert name f
    | .error _ => formats) dates

end Formats
end SchemaCompiler
