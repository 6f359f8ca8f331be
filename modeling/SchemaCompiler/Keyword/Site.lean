import SchemaCompiler.Emission
import SchemaCompiler.Plan
import SchemaCompiler.Resources

/-!
# Where a schema stands

A site is a schema together with all that its place in the program decides: the data that it
describes, and how paths in error records are made. A session is what the compilation of a program
keeps: the known documents, the schemas that have a function of their own, and what these functions
are to do.
-/
namespace SchemaCompiler

/-- How far the function of a schema has come. While it is being compiled, calls go through a
wrapper that stands for it. -/
inductive Progress where
  | pending
  | compiling (wrapper function : Name)
  | done (function : Name)
deriving DecidableEq, Repr

/-- A schema that has a function of its own. -/
structure Target where
  place : Location
  isAsync : Bool
  progress : Progress

/-- What the compilation of a program keeps. -/
structure Session where
  resources : Resources
  /-- The schemas with functions of their own, by the keys of their places. -/
  targets : List (String × Target)
  /-- What the functions are to do. -/
  checkers : List (Name × Checker)
  /-- The targets being compiled, outermost first, each with whether the reference that led to it
  took no step into the data. -/
  chain : List (String × Bool)
  /-- The document that the compilation started from. -/
  entryDocument : Option String

namespace Session

def empty : Session := ⟨.empty, [], [], [], none⟩

instance : Inhabited Session := ⟨empty⟩

def setProgress (key : String) (progress : Progress) (s : Session) : Session :=
  match Assoc.get? key s.targets with
  | some t => { s with targets := Assoc.insert key { t with progress := progress } s.targets }
  | none => s

end Session

abbrev Planner (α : Type) := Gen Session α

/-- A construct that stands around the code of a schema. Some are only there in one of the ways to
treat errors. -/
structure Enclosure where
  kind : BlockKind
  /-- Whether all errors have to be collected, or must not be. -/
  allErrors : Option Bool

namespace Enclosure

def always (kind : BlockKind) : Enclosure := ⟨kind, none⟩

def isThere (allErrors : Bool) (e : Enclosure) : Bool := (e.allErrors.map (· == allErrors)).getD true

end Enclosure

/-- A schema where it stands. -/
structure Site where
  schema : Json
  /-- The pointer to the schema in error records. -/
  schemaPath : String
  /-- The data that the schema describes. -/
  data : Name
  /-- The data at each level, from the parameter of the function down to here. -/
  levels : List Name
  /-- The path of the data, as far as it is known before the program runs. -/
  instancePath : Expr
  rootData : Name
  /-- How many errors there were before the schema. -/
  errorsBefore : Name
  /-- Whether the schema is part of a composition that decides itself what an error means. -/
  composite : Bool
  isAsync : Bool
  /-- The base that references are resolved against. -/
  base : Url
  /-- The constructs around the code of the schema, from the inside out. -/
  around : List Enclosure

namespace Site

def inside (around : List Enclosure) (site : Site) : Site :=
  { site with around := around ++ site.around }

def level (site : Site) : Nat := site.levels.length - 1

def mode (site : Site) (allErrors : Bool) : Mode := ⟨allErrors, site.composite, site.isAsync⟩

def record (site : Site) (keyword schemaPath : String) (params : List (String × Expr))
    (message : Expr) : Expr :=
  .object [("instancePath", site.instancePath), ("schemaPath", .str schemaPath),
    ("keyword", .str keyword), ("params", .object params), ("message", message)]

def keywordPath (site : Site) (keyword : String) : String :=
  site.schemaPath ++ "/" ++ Json.Pointer.escape keyword

end Site
end SchemaCompiler
