import SchemaCompiler.Compiler.Check

/-!
# Planning a schema in its place

The `type` of a schema comes first, then its keywords group by group, each group behind a test of
the type of the data. Unless all errors are collected, each further keyword is only looked at where
there is no error as yet.
-/
namespace SchemaCompiler

/-- The expression that reads a pointer into the data: from the root, or from some levels above the
data. -/
def Site.dataPointer (site : Site) (pointer : String) : Except CompileError Expr :=
  let bad : CompileError := .invalidSchema site.schemaPath (.badDataPointer pointer)
  let start : Except CompileError (Expr × String) :=
    if pointer.isEmpty || pointer.startsWith "/" then .ok (.var site.rootData, pointer)
    else
      let digits := pointer.toList.takeWhile Char.isDigit
      let rest := String.ofList (pointer.toList.dropWhile Char.isDigit)
      match Resources.looseIndex? (String.ofList digits) with
      | none => .error bad
      | some up =>
        match site.levels.reverse[up]? with
        | some name =>
          if rest.isEmpty || rest.startsWith "/" then .ok (.var name, rest) else .error bad
        | none => .error bad
  start.map fun (base, rest) =>
    (Json.Pointer.tokens rest).foldl (fun e token =>
      let token := Json.Pointer.unescape token
      match Resources.looseIndex? token with
      | some n =>
        if n ≤ Json.maxUnsigned then .index e (.nat n) else .index e (.str token)
      | none => .index e (.str token)) base

namespace Dialect

def isSuperseded (d : Dialect) (members : List (String × Json)) (keyword : String) : Bool :=
  members.any fun (key, _) =>
    key != keyword &&
      match d.vocabulary.get? key with
      | some k => k.supersedes.contains keyword
      | none => false

def isActive (k : Keyword) : Bool :=
  k.keyword != "type" &&
    match k.kind with
    | .remark => false
    | _ => true

/-- The keywords of a group that a schema has, with their values, in the order of definition. -/
def groupKeywords (d : Dialect) (members : List (String × Json)) (group : KeywordGroup) :
    List (Keyword × Json) :=
  let present := d.vocabulary.keywords.filter fun k =>
    isActive k && k.groups.contains group && !d.isSuperseded members k.keyword
  present.filterMap fun k => (Assoc.get? k.keyword members).map fun v => (k, v)

/-! ## One keyword -/

def keywordStem : Stem := .of "keyword"

def dataSchemaStem : LocalStem := .of "dataSchema"

def planTest (test : Json → Json → Bool) (path : Option String) (o : Occurrence) :
    Planner Plan := do
  let name ← Gen.value keywordStem
    (.keyed ("keyword:" ++ o.keyword) (.keyword test) (path.map StoredValue.imported))
  let value ← o.valueCode
  return o.failUnless (.callName name [value, o.data]) []

def planExpansion (d : Dialect) (expand : Json → Json → Json) (o : Occurrence) :
    Planner Plan := do
  let schema := expand o.value o.site.schema
  match d.checkSchema (o.site.keywordPath o.keyword) schema with
  | .error e => throw e
  | .ok _ => o.require (.here schema [o.keyword])

def typeTest (types : List JsonType) (data : Expr) : Expr :=
  .any (types.map fun t => .typeIs data t)

/-- The test that the data is of a type that the keyword is about, unless the test of its group
says so. -/
def keywordGuard (k : Keyword) (site : Site) (group : Option JsonType) : Option Expr :=
  let covered := (group.map k.types.contains).getD false
  if k.types.isEmpty || covered then none else some (typeTest k.types (.var site.data))

def wrongDataType (o : Occurrence) : Expr :=
  o.record [] (.str ("\"" ++ o.keyword ++ "\" keyword is invalid ($data)"))

def pointerOf (v : Json) : String := ((v.get? "$data").bind Json.string?).getD ""

def dataAround (k : Keyword) : List Enclosure :=
  List.replicate (if k.valueTypes.isEmpty then 1 else 2) (.always .branch)

/-- Plans a keyword on a value that is read from the data: where there is none, nothing is tested,
and where it is of the wrong type, that is an error. -/
def planOnData (k : Keyword) (o : Occurrence) (plan : Occurrence → Planner Plan) :
    Planner Plan :=
  match o.site.dataPointer (pointerOf o.value) with
  | .error e => throw e
  | .ok pointer => do
    let code ← Gen.fresh dataSchemaStem
    let body ← plan { o with dataCode := some (.var code), site := o.site.inside (dataAround k) }
    let body :=
      if k.valueTypes.isEmpty then body
      else
        .branch (typeTest k.valueTypes (.var code)).negate (.report (wrongDataType o) false) body
    return .seq (.quiet [.declare code (some pointer) true])
      (.when (.differs (.var code) .null) body)

def openOnData (k : Keyword) (mode : Mode) (o : Occurrence) (b : Builder) :
    Planner (Occurrence × Builder) :=
  match o.site.dataPointer (pointerOf o.value) with
  | .error e => throw e
  | .ok pointer => do
    let code ← Gen.fresh dataSchemaStem
    let o := { o with dataCode := some (.var code) }
    let b := (b.emit (.declare code (some pointer) true)).startIf (.differs (.var code) .null)
    if k.valueTypes.isEmpty then return (o, b)
    else
      let b := b.startIf (typeTest k.valueTypes (.var code)).negate
      let b ← Gen.checked (b.emitAll (mode.reporting (wrongDataType o))).otherwise
      return (o, b)

def planScript (d : Dialect) (k : Keyword) (script : Script Unit) (guard : Option Expr)
    (o : Occurrence) : Planner Plan := do
  let mode := o.site.mode d.options.allErrors
  let around := o.site.around.filter (Enclosure.isThere d.options.allErrors)
  let b := (Builder.inside (around.map Enclosure.kind)).startBlock
  let b :=
    match guard with
    | some condition => b.startIf condition
    | none => b
  let (o, b) ← if d.refersToData k o.value then openOnData k mode o b else pure (o, b)
  script.run mode o b

def planKeyword (d : Dialect) (visit : Site → Planner Plan) (site : Site)
    (group : Option JsonType) (k : Keyword) (v : Json) : Planner Plan :=
  let guard := keywordGuard k site group
  let o (site : Site) : Occurrence :=
    ⟨k.keyword, v, none, site, k.template, d.options.policy, d.formats, visit⟩
  let inner := o (site.inside (guard.toList.map fun _ => .always .branch))
  let onValue (plan : Occurrence → Planner Plan) : Planner Plan := do
    return .guarded guard
      (← if d.refersToData k v then planOnData k inner plan else plan inner)
  match k.kind with
  | .remark => return .nothing
  | .expansion expand => do return .guarded guard (← planExpansion d expand inner)
  | .code plan => onValue plan
  | .test test path => onValue (planTest test path)
  | .script script => planScript d k script guard (o site)

/-! ## A whole schema -/

def isExcluded (types : List JsonType) (group : KeywordGroup) : Bool :=
  group.type?.isSome && !types.isEmpty && !types.any fun t => KeywordGroup.of t == group

def isPinned (types : List JsonType) (group : KeywordGroup) : Bool :=
  !types.isEmpty && types.all fun t => KeywordGroup.of t == group

def typedGroup (site : Site) (types : List JsonType) (group : KeywordGroup) (body : Plan) : Plan :=
  match group.type? with
  | some t => .typed (isPinned types group) (.typeIs (.var site.data) t) body
  | none => body

/-- The branches around a group: that there are no errors as yet, and the test of the type. -/
def groupAround (types : List JsonType) (isFirst : Bool) (group : KeywordGroup) :
    List Enclosure :=
  (if group.type?.isSome then
    [⟨.branch, if isPinned types group then some true else none⟩] else [])
  ++ if isFirst then [] else [⟨.branch, some false⟩]

def planCascade (d : Dialect) (visit : Site → Planner Plan) (group : Option JsonType) :
    Site → List (Keyword × Json) → Planner Plan
  | _, [] => return .nothing
  | site, (k, v) :: rest => do
    let first ← d.planKeyword visit site group k v
    let others ← d.planCascade visit group (site.inside [⟨.branch, some false⟩]) rest
    return if rest.isEmpty then first else .next site.errorsBefore first others

def planGroups (d : Dialect) (visit : Site → Planner Plan) (site : Site)
    (members : List (String × Json)) (types : List JsonType) :
    Option Plan → List KeywordGroup → Planner Plan
  | done, [] => return done.getD .nothing
  | done, group :: rest => do
    let keywords := d.groupKeywords members group
    if keywords.isEmpty || isExcluded types group then
      planGroups d visit site members types done rest
    else
      let around := groupAround types done.isNone group
      let body ← d.planCascade visit group.type? (site.inside around) keywords
      let plan := typedGroup site types group body
      let all :=
        match done with
        | none => plan
        | some earlier => .next site.errorsBefore earlier plan
      planGroups d visit site members types (some all) rest

def planMembers (d : Dialect) (visit : Site → Planner Plan) (site : Site)
    (members : List (String × Json)) : Planner Plan := do
  let types := Core.typesOf members
  match d.vocabulary.get? "type", Assoc.get? "type" members with
  | some k, some v => do
    let first ← d.planKeyword visit site none k v
    d.planGroups visit site members types (some first) KeywordGroup.order
  | _, _ => d.planGroups visit site members types none KeywordGroup.order

/-- Plans a schema in its place; `visit` does the same for the schemas in it. -/
def planSchema (d : Dialect) (visit : Site → Planner Plan) (site : Site) : Planner Plan :=
  match site.schema with
  | .bool true => return .schema site.schema .nothing
  | .bool false =>
    return .schema site.schema (.report (site.record "false schema" site.schemaPath []
      (.str "boolean schema is false")) false)
  | .object members => do return .schema site.schema (← d.planMembers visit site members)
  | _ => throw (.invalidSchema site.schemaPath .notASchema)

def planTo (d : Dialect) : Nat → Site → Planner Plan
  | 0, site => throw (.endless site.schemaPath)
  | depth + 1, site => d.planSchema (d.planTo depth) site

end Dialect
end SchemaCompiler
