import SchemaCompiler.Keyword.Vocabulary

/-!
# References

A reference applies the schema that it leads to. A small schema without references of its own is
put in its place; any other has one function, which is compiled once and called from wherever a
reference leads to it. While that function is being compiled, calls of it go through a wrapper.
-/
namespace SchemaCompiler

namespace Session

def targetFor (place : Location) (s : Session) : Target × Session :=
  match Assoc.get? place.key s.targets with
  | some t => (t, s)
  | none =>
    let isAsync := (((place.schema?).bind (Json.get? "$async")).bind Json.bool?).getD false
    let t : Target := ⟨place, isAsync, .pending⟩
    (t, { s with targets := Assoc.insert place.key t s.targets })

/-- Whether a call of a target from here would take up the same data again without end: no
reference on the way to here took a step into the data. -/
def isStuck (key : String) (level : Nat) (s : Session) : Bool :=
  level == 0 &&
    match s.chain.dropWhile fun e => e.1 != key with
    | _ :: rest => rest.all Prod.snd
    | [] => false

end Session

namespace Reference

/-- The stem of validating functions and of the values that stand for them. -/
def validateStem : Stem := .of "validate"

def exceptionStem : LocalStem := .of "e"

def rootSite (t : Target) (schema : Json) (errorsBefore : Name) : Site where
  schema := schema
  schemaPath := "#" ++ t.place.pointer
  data := dataName
  levels := [dataName]
  instancePath := .var instancePathName
  rootData := rootDataName
  errorsBefore := errorsBefore
  composite := false
  isAsync := t.isAsync
  base := t.place.base
  around := [.always .function]

def checker (visit : Site → Planner Plan) (t : Target) : Planner Checker := do
  let before ← Gen.fresh Occurrence.errorsStem
  match t.place.schema? with
  | none => throw (.invalidSchema t.place.key .noTarget)
  | some schema =>
    let plan ← visit (rootSite t schema before)
    return ⟨t.isAsync, before, plan⟩

/-- Compiles the function of a target, unless that is done or going on; gives its name. `direct`
says whether the reference to it took no step into the data. -/
def compileTarget (visit : Site → Planner Plan) (t : Target) (direct : Bool) : Planner Name :=
  match t.progress with
  | .done function => return function
  | .compiling _ function => return function
  | .pending => do
    let key := t.place.key
    let function ← Gen.onScope (ValueScope.fresh validateStem)
    let (slot, wrapper) ← Gen.onScope fun scope =>
      let (slot, wrapper, scope) := scope.reserve ("env:" ++ key)
      ((slot, wrapper), scope)
    Gen.modifySession fun s =>
      { s.setProgress key (.compiling wrapper function) with chain := s.chain ++ [(key, direct)] }
    let checker ← Gen.afresh (checker visit t)
    let a ← get
    let scope ← Gen.checked (a.library.scope.fill slot function)
    set { a with library := { a.library with scope := scope } }
    Gen.modifySession fun s =>
      { s.setProgress key (.done function) with
        checkers := s.checkers ++ [(function, checker)]
        chain := s.chain.dropLast }
    return function

mutual
def holdsReference : Json → Bool
  | .object members => memberHoldsReference members
  | .array items => itemHoldsReference items
  | _ => false

def memberHoldsReference : List (String × Json) → Bool
  | [] => false
  | (key, v) :: rest =>
    key == "$ref" || key == "$dynamicRef" || (Resources.holdsSchemas key && holdsReference v)
      || memberHoldsReference rest

def itemHoldsReference : List Json → Bool
  | [] => false
  | v :: rest => holdsReference v || itemHoldsReference rest
end

mutual
def size : Json → Nat
  | .object members => sizeOfMembers members
  | .array items => sizeOfItems items
  | _ => 0

def sizeOfMembers : List (String × Json) → Nat
  | [] => 0
  | (key, v) :: rest =>
    1 + (if Resources.holdsSchemas key then size v else 0) + sizeOfMembers rest

def sizeOfItems : List Json → Nat
  | [] => 0
  | v :: rest => size v + sizeOfItems rest
end

def isInlinable (limit : Nat) : Json → Bool
  | .bool _ => true
  | .object members =>
    !holdsReference (.object members) && decide (size (.object members) ≤ limit)
  | _ => false

def anchorOf (reference : String) : Option String :=
  match reference.toList.reverse.span (· != '#') with
  | (anchor, '#' :: _) =>
    let anchor := String.ofList anchor.reverse
    if anchor.isEmpty || anchor.startsWith "/" then none else some anchor
  | _ => none

/-- The place that a dynamic reference leads to: the anchor of the same name of the document that
the compilation started from, if the place found first declares itself open to that. -/
def override (s : Session) (place : Location) (reference : String) : Location :=
  match anchorOf reference with
  | none => place
  | some anchor =>
    let declared := ((place.schema?).bind (Json.get? "$dynamicAnchor")).bind Json.string?
    let outer := s.entryDocument.bind fun document => s.resources.dynamicAnchor document anchor
    match outer with
    | some outer => if declared = some anchor then outer else place
    | none => place

def functionValue (place : Location) (function : Name) : Planner Name :=
  Gen.value validateStem
    (.keyed ("env:" ++ place.key) (.function function) (some (.function function)))

def callTarget (o : Occurrence) (isAsync : Bool) (callee : Name) : Planner Plan := do
  let invocation ←
    if isAsync then do
      let before ← Gen.fresh Occurrence.errorsStem
      let caught ← Gen.fresh exceptionStem
      pure (Invocation.awaited before caught)
    else do
      let valid ← Gen.fresh Occurrence.validStem
      pure (Invocation.plain valid)
  return .call invocation callee [o.data, o.site.instancePath, .var o.site.rootData]

def callPlace (o : Occurrence) (place : Location) (t : Target) : Planner Plan :=
  match t.progress with
  | .compiling wrapper _ => do
    if (← Gen.session).isStuck place.key o.site.level then return .nothing
    else callTarget o t.isAsync wrapper
  | .pending => do
    let function ← compileTarget o.visit t (o.site.level == 0)
    callTarget o t.isAsync (← functionValue place function)
  | .done function => do callTarget o t.isAsync (← functionValue place function)

/-- The schema of a target, if it may be put in the place of a reference to it. -/
def inlined? (o : Occurrence) (t : Target) : Option Json :=
  match o.policy.inlineLimit, t.place.schema?, t.progress with
  | some _, some _, .compiling _ _ => none
  | some limit, some schema, _ =>
    if t.isAsync == o.site.isAsync && isInlinable limit schema then some schema else none
  | _, _, _ => none

def unresolved (policy : MissingPolicy) (missing : MissingReference) : Planner Plan :=
  match policy with
  | .fail => throw (.unresolvedReference missing)
  | .warn => return .nothing
  | .propagate => throw (.missingReference missing)

def apply (dynamic : Bool) (o : Occurrence) : Planner Plan := do
  let reference := (o.value.string?).getD ""
  let s ← Gen.session
  match s.resources.resolve reference o.site.base with
  | .error missing => unresolved o.policy.missing missing
  | .ok place => do
    let place := if dynamic then override s place reference else place
    let (t, s) := s.targetFor place
    Gen.setSession s
    if t.isAsync && !o.site.isAsync then
      throw (.asyncReference (o.site.schemaPath ++ "/" ++ o.keyword))
    match inlined? o { t with place := place } with
    | some schema =>
      o.require (.elsewhere schema ("#" ++ place.pointer) place.base)
    | none => callPlace o place t

def definition (keyword : String) (dynamic : Bool) : KeywordDefinition :=
  { KeywordDefinition.plain keyword (.code (apply dynamic)) with valueTypes := [.string] }

end Reference
end SchemaCompiler
