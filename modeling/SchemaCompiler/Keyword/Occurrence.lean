import SchemaCompiler.Format
import SchemaCompiler.Keyword.Site
import SchemaCompiler.Options

/-!
# Occurrences of keywords

An occurrence is a keyword with its value in a schema. It is all that the plan of a keyword sees:
the data, the value, how to report an error, and how to have a schema inside the value planned.
-/
namespace SchemaCompiler

/-- A keyword where it occurs. -/
structure Occurrence where
  keyword : String
  /-- The value of the keyword as written. -/
  value : Json
  /-- What gives the value when the program runs, if that is a place in the data. -/
  dataCode : Option Expr
  site : Site
  /-- The message of errors. -/
  template : Option Template
  policy : Policy
  formats : Formats
  /-- Plans a schema in its place. -/
  visit : Site → Planner Plan

/-- How the data of an inner schema is reached: a known property, a property known when the program
runs, an item, or another value at the same place. -/
inductive DataStep where
  | property (name : String)
  | dynamic (key : Expr)
  | item (index : Expr)
  | replace (name : Name)

/-- An inner schema and how it is applied. -/
structure Inner where
  schema : Json
  /-- The tokens from the schema around to the inner one. -/
  path : List String
  step : Option DataStep
  composite : Bool
  /-- For a schema that lives elsewhere: its path and its base. -/
  location : Option (String × Url)
  /-- The kinds of constructs that the code of the keyword puts around it, from the inside out. -/
  around : List BlockKind

namespace Inner

def here (schema : Json) (path : List String) : Inner := ⟨schema, path, none, false, none, []⟩

def along (step : DataStep) (inner : Inner) : Inner := { inner with step := some step }

def composed (inner : Inner) : Inner := { inner with composite := true }

def inside (kinds : List BlockKind) (inner : Inner) : Inner := { inner with around := kinds }

def elsewhere (schema : Json) (path : String) (base : Url) : Inner :=
  ⟨schema, [], none, false, some (path, base), []⟩

end Inner

namespace Occurrence

def data (o : Occurrence) : Expr := .var o.site.data

def parent (o : Occurrence) : Json := o.site.schema

def isData (o : Occurrence) : Bool := o.dataCode.isSome

/-! ## Values -/

def schemaStem : Stem := .of "schema"

def patternStem : Stem := .of "pattern"

/-- A value in the program: a literal, or an injected value for containers. -/
def inject (v : Json) : Planner Expr :=
  if v.isContainer then do
    let name ← Gen.value schemaStem (.json v)
    return .var name
  else return .lit v

def valueCode (o : Occurrence) : Planner Expr :=
  match o.dataCode with
  | some code => return code
  | none => inject o.value

def pattern (source : String) : Planner Name :=
  match Pattern.read source with
  | .ok compiled =>
    Gen.value patternStem
      (.keyed ("pattern:" ++ source) (.pattern source compiled) (some (.pattern source)))
  | .error fault => throw (.invalidPattern source fault)

/-! ## Errors -/

def message (o : Occurrence) (params : List (String × Expr)) : Expr :=
  match o.template with
  | some t => t.render params
  | none => .str ("must pass \"" ++ o.keyword ++ "\" keyword validation")

def record (o : Occurrence) (params : List (String × Expr)) (message : Expr) : Expr :=
  o.site.record o.keyword (o.site.keywordPath o.keyword) params message

def ownRecord (o : Occurrence) (params : List (String × Expr)) : Expr :=
  o.record params (o.message params)

def report (o : Occurrence) (params : List (String × Expr)) : Plan :=
  .report (o.ownRecord params) false

def failIf (o : Occurrence) (condition : Expr) (params : List (String × Expr)) : Plan :=
  if condition.isFalse then .nothing
  else if condition.isTrue then o.report params
  else .when condition (o.report params)

def failUnless (o : Occurrence) (condition : Expr) (params : List (String × Expr)) : Plan :=
  o.failIf condition.negate params

def errorsStem : LocalStem := .of "errs"

def validStem : LocalStem := .of "valid"

def dataStem : LocalStem := .of "data"

/-! ## Inner schemas -/

def descend (site : Site) (key segment : Expr) : Planner (Site × Option Descent) := do
  let data ← Gen.fresh dataStem
  return ({ site with
    data := data
    levels := site.levels ++ [data]
    instancePath := site.instancePath.plus segment }, some ⟨data, site.data, key⟩)

def indexSegment : Expr → Expr
  | .lit v => .str ("/" ++ v.render)
  | e => .plus (.str "/") e

def innerSite (site : Site) (inner : Inner) (errorsBefore : Name) : Site :=
  let (path, base) :=
    match inner.location with
    | some (path, base) => (path, base)
    | none =>
      (site.schemaPath ++ String.join (inner.path.map fun t => "/" ++ Json.Pointer.escape t),
        Resources.baseInside site.base (some inner.schema))
  { site with
    schema := inner.schema, schemaPath := path, errorsBefore := errorsBefore
    composite := site.composite || inner.composite, base := base
    around := inner.around.map Enclosure.always ++ site.around }

/-- The site of an inner schema, and the step into the data that leads there. -/
def enter (site : Site) (inner : Inner) (errorsBefore : Name) :
    Planner (Site × Option Descent) := do
  let site := innerSite site inner errorsBefore
  match inner.step with
  | none => return (site, none)
  | some (.property name) =>
    descend site (.str name) (.str ("/" ++ Json.Pointer.escape name))
  | some (.dynamic key) => do
    let escape ← Gen.primitive .escapePointer
    descend site key (.plus (.str "/") (.callName escape [key]))
  | some (.item index) => descend site index (indexSegment index)
  | some (.replace name) => return ({ site with data := name }, none)

def attempt (o : Occurrence) (inner : Inner) (breaks : Bool) : Planner (Name × Plan) := do
  let before ← Gen.fresh errorsStem
  let (site, descent) ← enter o.site inner before
  let body ← o.visit site
  let valid ← Gen.fresh validStem
  return (valid, .trial ⟨before, descent, inner.composite, valid, breaks⟩ body)

def require (o : Occurrence) (inner : Inner) : Planner Plan := do
  let (_, plan) ← o.attempt inner false
  return plan

end Occurrence
end SchemaCompiler
