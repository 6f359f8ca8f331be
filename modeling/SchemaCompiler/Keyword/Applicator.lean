import SchemaCompiler.Keyword.Assertion

/-!
# Applicators

Keywords that apply other schemas to the data or to parts of it.
-/
namespace SchemaCompiler.Applicator

def schemaTypes : List JsonType := [.object, .boolean]

def branches (v : Json) : List (Json × Nat) := ((v.array?).getD []).zipIdx

def part (keyword : String) (i : Nat) : List String := [keyword, toString i]

def planEach {α : Type} (plan : α → Planner Plan) (parts : List α) : Planner Plan := do
  return .all (← parts.mapM plan)

/-! ## Combinations -/

def planAllOf (o : Occurrence) : Planner Plan :=
  planEach (fun (schema, i) =>
    if schema.isBool true then return .nothing else o.require (.here schema (part "allOf" i)))
    (branches o.value)

/-- Alternatives, each with what remembers its verdict; a later one is tried only where no earlier
one holds. -/
def planAlternatives (o : Occurrence) (valid : Name) : List (Json × Nat) → Planner Plan
  | [] => return .nothing
  | (schema, i) :: rest => do
    let inner := (Inner.here schema (part "anyOf" i)).composed.inside (List.replicate i .branch)
    let (branch, plan) ← o.attempt inner false
    let first := Plan.seq plan (.quiet [.assign valid (.var branch)])
    let others ← planAlternatives o valid rest
    return if rest.isEmpty then first else .seq first (.when (Expr.var valid).negate others)

def planAnyOf (o : Occurrence) : Planner Plan := do
  let before ← Gen.fresh Occurrence.errorsStem
  let valid ← Gen.fresh Occurrence.validStem
  let body ← planAlternatives o valid (branches o.value)
  return .settle before (.seq (.quiet [.declare valid (some (.bool false)) false]) body)
    (.dropIf (.var valid) (o.ownRecord []))

def passingStem : LocalStem := .of "passing"

def tally (branch valid passing : Name) (i : Nat) : Plan :=
  let first := Plan.when (.var branch)
    (.quiet [.assign valid (.bool true), .assign passing (.nat i)])
  if i = 0 then first
  else
    .branch (.all [.var branch, .var valid])
      (.quiet [.assign valid (.bool false), .assign passing (.array [.var passing, .nat i])])
      first

def planOneOf (o : Occurrence) : Planner Plan := do
  let before ← Gen.fresh Occurrence.errorsStem
  let valid ← Gen.fresh Occurrence.validStem
  let passing ← Gen.fresh passingStem
  let body ← planEach (fun (schema, i) => do
    let (branch, plan) ← o.attempt (Inner.here schema (part "oneOf" i)).composed false
    return .seq plan (tally branch valid passing i)) (branches o.value)
  return .settle before
    (.seq (.quiet [.declare valid (some (.bool false)) false,
      .declare passing (some .null) false]) body)
    (.dropIf (.var valid) (o.ownRecord [("passingSchemas", .var passing)]))

def planNot (o : Occurrence) : Planner Plan := do
  let before ← Gen.fresh Occurrence.errorsStem
  let (valid, plan) ← o.attempt (Inner.here o.value ["not"]).composed false
  return .settle before plan (.dropUnless (.var valid) (o.ownRecord []))

def clauseStem : LocalStem := .of "ifClause"

/-- Applies a branch, if there is one, and remembers its verdict and its name. -/
def clause (o : Occurrence) (valid taken : Name) (keyword : String) :
    Option Json → Planner (Option Plan)
  | none => return none
  | some schema => do
    let (ok, plan) ← o.attempt ((Inner.here schema [keyword]).inside [.branch]) false
    return some (.seq plan
      (.quiet [.assign valid (.var ok), .assign taken (.str keyword)]))

def select (matched : Name) : Option Plan → Option Plan → Plan
  | some yes, some no => .branch (.var matched) yes no
  | some yes, none => .when (.var matched) yes
  | none, some no => .when (Expr.var matched).negate no
  | none, none => .nothing

def planIf (o : Occurrence) : Planner Plan := do
  let yes := o.parent.get? "then"
  let no := o.parent.get? "else"
  if yes.isNone && no.isNone then return .nothing
  let valid ← Gen.fresh Occurrence.validStem
  let taken ← Gen.fresh clauseStem
  let before ← Gen.fresh Occurrence.errorsStem
  let (matched, test) ← o.attempt (Inner.here o.value ["if"]).composed false
  let yes ← clause o valid taken "then" yes
  let no ← clause o valid taken "else" no
  return .all
    [.quiet [.declare valid (some (.bool true)) false, .declare taken (some .null) false],
      .settle before test .drop, select matched yes no,
      o.failUnless (.var valid) [("failingKeyword", .var taken)]]

/-! ## Arrays -/

def planTuple (keyword : String) (o : Occurrence) : Planner Plan :=
  planEach (fun (schema, i) =>
    if schema.isBool true then return .nothing
    else do
      let inner := (Inner.here schema (part keyword i)).along (.item (.nat i))
      let plan ← o.require (inner.inside [.branch])
      return .when (.binary .gt (.len o.data) (.nat i)) plan) (branches o.value)

def planRest (keyword : String) (start : Nat) (o : Occurrence) : Planner Plan :=
  match o.value with
  | .bool true => return .nothing
  | .bool false =>
    return o.failIf (.binary .gt (.len o.data) (.nat start)) [("limit", .nat start)]
  | schema => do
    let i ← Gen.fresh Assertion.indexStem
    let inner := (Inner.here schema [keyword]).along (.item (.var i))
    let (_, plan) ← o.attempt (inner.inside [.loop]) true
    return .loop i (.range (.nat start) (.len o.data)) plan

def siblingLength (o : Occurrence) (keyword : String) : Option Nat :=
  ((o.parent.get? keyword).bind Json.array?).map List.length

/-- Schemas for the first items, or one for all items behind the first ones. -/
def planItems (o : Occurrence) : Planner Plan :=
  match o.value with
  | .array _ => planTuple "items" o
  | _ => planRest "items" ((siblingLength o "prefixItems").getD 0) o

def planAdditionalItems (o : Occurrence) : Planner Plan :=
  match siblingLength o "items" with
  | some n => planRest "additionalItems" n o
  | none => return .nothing

def countStem : LocalStem := .of "count"

def containsBounds (o : Occurrence) : Nat × Option Nat :=
  (((o.parent.get? "minContains").bind Json.unsigned?).getD 1,
    (o.parent.get? "maxContains").bind Json.unsigned?)

def containsSettlement (o : Occurrence) (count : Name) (min : Nat) : Option Nat → Settlement
  | none =>
    .dropIf (.binary .ge (.var count) (.nat min)) (o.ownRecord [("minContains", .nat min)])
  | some max =>
    .dropIf (.all [.binary .ge (.var count) (.nat min), .binary .le (.var count) (.nat max)])
      (o.record [("minContains", .nat min), ("maxContains", .nat max)]
        (.str ("must contain at least " ++ toString min ++ " and no more than " ++ toString max
          ++ " valid item(s)")))

/-- Counts an item that fits the schema. Without a bound from above the loop is left once there are
enough. -/
def countItem (valid count : Name) (min : Nat) (max : Option Nat) : Plan :=
  .seq (.when (.var valid) (.quiet [.assign count (.plus (.var count) (.nat 1))]))
    (if max.isNone then .when (.binary .ge (.var count) (.nat min)) .leave else .nothing)

def planContains (o : Occurrence) : Planner Plan := do
  let (min, max) := containsBounds o
  let before ← Gen.fresh Occurrence.errorsStem
  let count ← Gen.fresh countStem
  let i ← Gen.fresh Assertion.indexStem
  let inner := ((Inner.here o.value ["contains"]).along (.item (.var i))).composed
  let (valid, plan) ← o.attempt (inner.inside [.loop]) false
  return .settle before
    (.seq (.quiet [.declare count (some (.nat 0)) false])
      (.loop i (.range (.nat 0) (.len o.data)) (.seq plan (countItem valid count min max))))
    (containsSettlement o count min max)

/-! ## Objects -/

/-- Every schema holds of the property of its name, where the data has it. -/
def planProperties (o : Occurrence) : Planner Plan :=
  planEach (fun (name, schema) =>
    if Json.isBool true schema then return .nothing
    else do
      let inner := (Inner.here schema ["properties", name]).along (.property name)
      let plan ← o.require (inner.inside [.branch])
      return .when (.has o.data (.str name)) plan) ((o.value.object?).getD [])

def keyStem : LocalStem := .of "key"

def planPatternProperties (o : Occurrence) : Planner Plan :=
  planEach (fun (source, schema) => do
    let pattern ← Occurrence.pattern source
    let key ← Gen.fresh keyStem
    let inner := (Inner.here schema ["patternProperties", source]).along (.dynamic (.var key))
    let (_, plan) ← o.attempt (inner.inside [.branch, .loop]) true
    return .loop key (.keys o.data) (.when (.callName pattern [.var key]) plan))
    ((o.value.object?).getD [])

/-- The tests that a key is none of the properties beside the keyword. Many properties are looked
up in the injected object. -/
def unnamed (o : Occurrence) (key : Name) : Planner (List Expr) :=
  match o.parent.get? "properties" with
  | some (.object members) =>
    if members.length > Assertion.unrollLimit then do
      let injected ← Occurrence.inject (.object members)
      return [(Expr.has injected (.var key)).negate]
    else return members.map fun (name, _) => .differs (.var key) (.str name)
  | _ => return []

def unmatched (o : Occurrence) (key : Name) : Planner (List Expr) :=
  (((o.parent.get? "patternProperties").bind Json.object?).getD []).mapM fun (source, _) => do
    let pattern ← Occurrence.pattern source
    return (Expr.callName pattern [.var key]).negate

def planAdditional (o : Occurrence) (key : Name) : Planner Plan :=
  if o.value.isBool false then
    return .report (o.ownRecord [("additionalProperty", .var key)]) true
  else do
    let inner := (Inner.here o.value ["additionalProperties"]).along (.dynamic (.var key))
    let (_, plan) ← o.attempt (inner.inside [.branch, .loop]) true
    return plan

/-- The schema holds of the properties that neither `properties` nor `patternProperties` speak
of. -/
def planAdditionalProperties (o : Occurrence) : Planner Plan :=
  if o.value.isBool true then return .nothing
  else do
    let key ← Gen.fresh keyStem
    let unnamed ← unnamed o key
    let unmatched ← unmatched o key
    let plan ← planAdditional o key
    return .loop key (.keys o.data) (.when (.all (unnamed ++ unmatched)) plan)

def planPropertyNames (o : Occurrence) : Planner Plan :=
  if o.value.isBool true then return .nothing
  else do
    let key ← Gen.fresh keyStem
    let inner := ((Inner.here o.value ["propertyNames"]).along (.replace key)).composed
    let (valid, plan) ← o.attempt (inner.inside [.loop]) false
    return .loop key (.keys o.data)
      (.seq plan (.when (Expr.var valid).negate
        (.report (o.ownRecord [("propertyName", .var key)]) true)))

/-! ## Definitions -/

def single (keyword : String) (plan : Occurrence → Planner Plan) : KeywordDefinition :=
  { KeywordDefinition.plain keyword (.code plan) with
    valueTypes := schemaTypes, layout := .single }

def list (keyword : String) (plan : Occurrence → Planner Plan) : KeywordDefinition :=
  { KeywordDefinition.plain keyword (.code plan) with valueTypes := [.array], layout := .list }

def map (keyword : String) (plan : Occurrence → Planner Plan) : KeywordDefinition :=
  { KeywordDefinition.plain keyword (.code plan) with
    types := [.object], valueTypes := [.object], layout := .map }

def appliedElsewhere (keyword : String) : KeywordDefinition :=
  { KeywordDefinition.plain keyword .remark with
    valueTypes := schemaTypes, layout := .single }

def bound (keyword : String) : KeywordDefinition :=
  { KeywordDefinition.plain keyword .remark with valueTypes := [.integer] }

def tooManyItems : String := "must NOT have more than \x7blimit\x7d items"

def definitions : List KeywordDefinition :=
  [list "allOf" planAllOf,
    { list "anyOf" planAnyOf with message := some "must match a schema in anyOf" },
    { list "oneOf" planOneOf with message := some "must match exactly one schema in oneOf" },
    { single "not" planNot with message := some "must NOT be valid" },
    { single "if" planIf with
      supersedes := ["then", "else"]
      message := some "must match \"\x7bfailingKeyword\x7d\" schema" },
    appliedElsewhere "then", appliedElsewhere "else",
    { list "prefixItems" (planTuple "prefixItems") with types := [.array] },
    { KeywordDefinition.plain "items" (.code planItems) with
      types := [.array]
      valueTypes := [.object, .boolean, .array]
      layout := .singleOrList
      message := some tooManyItems },
    { single "additionalItems" planAdditionalItems with
      types := [.array], message := some tooManyItems },
    { single "contains" planContains with
      types := [.array]
      message := some "must contain at least \x7bminContains\x7d valid item(s)" },
    bound "minContains", bound "maxContains",
    map "properties" planProperties,
    { map "patternProperties" planPatternProperties with
      check := some fun v _ =>
        ((v.object?).getD []).forM fun (source, _) => Assertion.checkSource source },
    { single "additionalProperties" planAdditionalProperties with
      types := [.object], message := some "must NOT have additional properties" },
    { single "propertyNames" planPropertyNames with
      types := [.object], message := some "property name must be valid" }]

end SchemaCompiler.Applicator
